import StackScript.Instr

/-!
# Words and what they decode to

A word that was made of an opcode and an operand has these fields (`Word.fields_of_make`), and each
form of operand is read back as it was written. A reference to a function is completed later by
setting bits that were left empty (`Word.fields_of_setBits`).
-/

namespace StackScript

/-! ## Kinds -/

namespace Kind

theorem code_lt (k : Kind) : k.code < 21 := by
  rcases k with _ | ⟨_ | _⟩ | ⟨_ | _⟩ | ⟨_ | _⟩ | _ | _ | _ | _ | _ | _ <;> decide

theorem code_lt_of_isInteger {k : Kind} (h : k.isInteger) : 1 ≤ k.code ∧ k.code < 11 := by
  rcases k with _ | ⟨_ | _⟩ | _ | _ | _ | _ | _ | _ | _ | _ <;> first | decide | cases h

/-- The kind, if an instruction word can name it. -/
def nameable (k : Kind) : Option Kind := if k.isBasic then some k else none

theorem nameable_of_isBasic {k : Kind} (h : k.isBasic) : k.nameable = some k := if_pos h

theorem basicOfCode?_code (k : Kind) : basicOfCode? k.code = k.nameable := by
  rw [basicOfCode?, ofCode?_code]
  cases h : k.isBasic <;> simp [nameable, Option.filter, h]

theorem isBasic_of_isNumeric {k : Kind} (h : k.isNumeric) : k.isBasic := by
  cases k <;> first | rfl | cases h

theorem isBasic_of_isInteger {k : Kind} (h : k.isInteger) : k.isBasic := by
  cases k <;> first | rfl | cases h

end Kind

namespace Operator

theorem code_lt (op : Operator) : op.code < 19 := by cases op <;> decide

/-- Operators are defined on basic kinds only. -/
theorem isBasic_of_definedOn {op : Operator} {k : Kind} (h : op.definedOn k) : k.isBasic := by
  cases k <;> first | rfl | (cases op <;> cases h)

end Operator

namespace AddressOperator

/-- The operator, if an instruction word can name it. -/
def nameable : AddressOperator → Option AddressOperator
  | update op => if op.hasUpdateForm then some (update op) else none
  | op => some op

theorem code_lt (op : AddressOperator) : op.code < 23 := by
  cases op with
  | update op => have := op.code_lt; simp only [code]; omega
  | _ => decide

theorem ofCode?_code (op : AddressOperator) : ofCode? op.code = op.nameable := by
  cases op with
  | update op =>
    rw [code, Nat.add_comm, ofCode?, Nat.mod_eq_of_lt (by have := op.code_lt; omega),
      Operator.ofCode?_code]
    cases h : op.hasUpdateForm <;> simp [nameable, Option.filter, h]
  | _ => rfl

end AddressOperator

theorem Opcode.code_lt (op : Opcode) : op.code < 26 := by cases op <;> decide

/-! ## Fields of a word -/

namespace Word

theorem operandRange_eq : operandRange = 67108864 := rfl

theorem tableRange_eq : tableRange = 65536 := rfl

theorem closureRange_eq : closureRange = 33554432 := rfl

theorem inlineRange_eq : inlineRange = 4194304 := rfl

/-- The two fields of a word. -/
structure Fields (w : Word) (op : Opcode) (n : Nat) : Prop where
  opcode : w.opcode? = some op
  operand : w.operand = n

theorem Fields.decode? {w : Word} {op : Opcode} {n : Nat} (h : w.Fields op n) :
    w.decode? = some (.ofOpcode w op) := by
  rw [Word.decode?, h.opcode, Option.map_some]

theorem fields_of_toNat {w : Word} {op : Opcode} {n : Nat} (hn : n < operandRange)
    (h : w.toNat = op.code * operandRange + n) : w.Fields op n where
  opcode := by
    rw [opcode?, h, Nat.mul_comm, Nat.mul_add_div (by decide), Nat.div_eq_of_lt hn]
    exact Opcode.ofCode?_code op
  operand := by
    rw [operand, h, Nat.mul_comm, Nat.mul_add_mod, Nat.mod_eq_of_lt hn]

theorem toNat_of_make {op : Opcode} {n : Nat} {w : Word} (h : make op n = .ok w) :
    n < operandRange ∧ w.toNat = op.code * operandRange + n := by
  unfold make at h
  split at h
  · cases h
    refine ⟨‹_›, ?_⟩
    have hcode := op.code_lt
    rw [BitVec.toNat_ofNat, Nat.mod_eq_of_lt]
    rw [operandRange_eq] at *
    omega
  · cases h

/-- A made word has the fields it was made of. -/
theorem fields_of_make {op : Opcode} {n : Nat} {w : Word} (h : make op n = .ok w) :
    w.Fields op n :=
  fields_of_toNat (toNat_of_make h).1 (toNat_of_make h).2

theorem lt_of_withOperandBits {w w' : Word} {bits : Nat} (h : w.withOperandBits bits = .ok w') :
    bits < operandRange := by
  unfold withOperandBits at h
  split at h
  · assumption
  · cases h

/-- Bits that a made word left empty are set later. -/
theorem fields_of_setBits {op : Opcode} {n bits : Nat} {w w' : Word} (h : make op n = .ok w)
    (hset : w.withOperandBits bits = .ok w') (hdisjoint : n ||| bits = n + bits)
    (hlt : n + bits < operandRange) : w'.Fields op (n + bits) := by
  unfold withOperandBits at hset
  split at hset
  · cases hset
    refine fields_of_toNat hlt ?_
    have hw := toNat_of_make h
    have hcode := op.code_lt
    rw [BitVec.toNat_or, hw.2, BitVec.toNat_ofNat, Nat.mod_eq_of_lt (by
      rw [operandRange_eq] at *; omega)]
    have hshift : ∀ a b, b < operandRange → a * operandRange + b = (a <<< 26) ||| b := by
      intro a b hb
      rw [← Nat.shiftLeft_add_eq_or_of_lt hb, Nat.shiftLeft_eq]
      rfl
    rw [hshift _ _ hw.1, hshift _ _ hlt, Nat.or_assoc, hdisjoint]
  · cases hset

/-! ## Forms of operands -/

theorem operand_of_makeAddress {scope index n : Nat} (h : makeAddress scope index = .ok n) :
    n / slotRange = scope ∧ n % slotRange = index := by
  unfold makeAddress at h
  split at h
  · cases h
  · split at h
    · cases h
    · cases h
      have hi : index < slotRange := by omega
      rw [Nat.mul_comm, Nat.mul_add_div (by decide), Nat.div_eq_of_lt hi, Nat.mul_add_mod,
        Nat.mod_eq_of_lt hi]
      exact ⟨rfl, rfl⟩

theorem fields_of_makeVar {op : Opcode} {scope index : Nat} {w : Word}
    (h : makeVar op scope index = .ok w) : w.opcode? = some op ∧ w.address = (scope, index) := by
  unfold makeVar at h
  cases ha : makeAddress scope index with
  | error f => rw [ha] at h; cases h
  | ok n =>
    rw [ha] at h
    have hw : w.Fields op n := fields_of_make h
    obtain ⟨hs, hi⟩ := operand_of_makeAddress ha
    exact ⟨hw.opcode, by rw [address, hw.operand, hs, hi]⟩

/-- A variable of an instruction has a small slot. -/
theorem lt_of_makeVar {op : Opcode} {scope index : Nat} {w : Word}
    (h : makeVar op scope index = .ok w) : index < slotRange := by
  have hindex : w.operand % slotRange = index := congrArg Prod.snd (fields_of_makeVar h).2
  exact hindex ▸ Nat.mod_lt _ (by decide)

theorem make_of_makeVariadicCall {op : Opcode} {arity index : Nat} {w : Word}
    (h : makeVariadicCall op arity index = .ok w) :
    make op (arity * tableRange + index) = .ok w := by
  unfold makeVariadicCall at h
  split at h
  · cases h
  · split at h
    · cases h
    · exact h

theorem fields_of_makeVariadicCall {op : Opcode} {arity index : Nat} {w : Word}
    (h : makeVariadicCall op arity index = .ok w) :
    w.Fields op (arity * tableRange + index) ∧ index < tableRange ∧ arity ≤ spreadArity := by
  unfold makeVariadicCall at h
  split at h
  · cases h
  · split at h
    · cases h
    · exact ⟨fields_of_make h, by omega, by omega⟩

theorem variadicCall_of_operand {w : Word} {arity index : Nat} (hi : index < tableRange)
    (h : w.operand = arity * tableRange + index) : w.variadicCall = (arity, index) := by
  rw [variadicCall, h, Nat.mul_comm, Nat.mul_add_div (by decide), Nat.div_eq_of_lt hi,
    Nat.mul_add_mod, Nat.mod_eq_of_lt hi, Nat.add_zero]

theorem operatorKind_of_operand {w : Word} {k : Kind} {n : Nat} (hn : n < 32)
    (h : w.operand = k.code * 32 + n) : w.operatorKind = k.nameable ∧ w.operand % 32 = n := by
  have hk := k.code_lt
  constructor
  · rw [operatorKind, h, ← Kind.basicOfCode?_code]
    congr 1
    omega
  · omega

theorem decode?_of_makeOperator {k : Kind} {op : Operator} {w : Word}
    (h : makeOperator k op = .ok w) : w.decode? = some (.builtinOp k.nameable (some op)) := by
  have hw := fields_of_make h
  obtain ⟨hk, hop⟩ := operatorKind_of_operand (by have := op.code_lt; omega) hw.operand
  rw [hw.decode?]
  show some (Instr.builtinOp w.operatorKind w.operator?) = _
  rw [hk, operator?, hop, Operator.ofCode?_code]

theorem decode?_of_makeAddressOperator {k : Kind} {op : AddressOperator} {w : Word}
    (h : makeAddressOperator k op = .ok w) : w.decode? = some (.addrOp k.nameable op.nameable) := by
  have hw := fields_of_make h
  obtain ⟨hk, hop⟩ := operatorKind_of_operand (by have := op.code_lt; omega) hw.operand
  rw [hw.decode?]
  show some (Instr.addrOp w.operatorKind w.addressOperator?) = _
  rw [hk, addressOperator?, hop, AddressOperator.ofCode?_code]

theorem decode?_of_makeConvert {k : Kind} {w : Word} (h : make .convert k.code = .ok w) :
    w.decode? = some (.convert k.nameable) := by
  have hw := fields_of_make h
  have hk := k.code_lt
  rw [hw.decode?]
  show some (Instr.convert w.conversionKind) = _
  rw [conversionKind, hw.operand, Nat.mod_eq_of_lt (by omega), Kind.basicOfCode?_code]

/-- An inline integer is read back with its sign. -/
theorem decode?_of_makeInt {k : Kind} {n : Int} {w : Word} (h : makeInt k n = .ok w) :
    w.decode? = some (.pushInt (some k) n) := by
  unfold makeInt at h
  split at h
  · cases h
  · split at h
    · cases h
    · rename_i hk hn
      have hw := fields_of_make h
      have hcode := Kind.code_lt_of_isInteger (k := k) (by simpa using hk)
      have hfits : -2097152 ≤ n ∧ n < 2097152 := by
        have hn : fitsInline n = true := by simpa using hn
        exact of_decide_eq_true hn
      have hbasic : k.nameable = some k :=
        Kind.nameable_of_isBasic (Kind.isBasic_of_isInteger (by simpa using hk))
      have hoperand : w.operand = k.code * 4194304 + (n % 4194304).toNat := hw.operand
      have hdiv : w.operand / 4194304 = k.code := by omega
      have hmod : w.operand % 4194304 = (n % 4194304).toNat := by omega
      rw [hw.decode?, Instr.ofOpcode, inlineInt, inlineRange_eq, hdiv, hmod,
        Kind.basicOfCode?_code, hbasic]
      congr 2
      show (if (n % 4194304).toNat < 2097152 then ((n % 4194304).toNat : Int)
        else ((n % 4194304).toNat : Int) - 4194304) = n
      split <;> omega

end Word

end StackScript
