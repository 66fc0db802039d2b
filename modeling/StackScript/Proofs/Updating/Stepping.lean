import StackScript.Proofs.Updating.Coinciding

/-!
# Steps as updates by one

An increment or a decrement takes its unit from the machine, and the update by the constant one takes it
from the program. Both are the same number: where the pool of constants holds one that counts as equal, that
is the unit itself, unless its imaginary part is a negative zero (`Kind.exists_unit`).
-/

namespace StackScript

open CompileState Machine

/-! ## Units -/

section

variable {p : Precision}

theorem Binary.convert_one (p : Precision) : (ofInt .double 1).convert p = ofInt p 1 := by
  cases p <;> decide +kernel

theorem Complex.convert_one (p : Precision) :
    (ofReal (.ofInt .double 1)).convert p = ofReal (.ofInt p 1) := by
  cases p <;> decide +kernel

theorem Binary.isZero_one (p : Precision) : (ofInt p 1).isZero = false := by
  cases p <;> decide +kernel

/-- What counts as equal to a number that is not zero is no negative zero. -/
theorem Binary.signless_of_eq {x y : Binary p} (h : x.eq y = true) (hy : y.isZero = false) :
    x.Signless := by
  rintro ⟨hx, -⟩
  simp only [eq, Bool.and_eq_true, beq_iff_eq] at h
  have hkey := h.2
  unfold isZero at hx hy
  rw [beq_iff_eq] at hx
  rw [beq_eq_false_iff_ne] at hy
  unfold key at hkey
  rw [hx] at hkey
  split at hkey <;> split at hkey <;> omega

theorem Value.eq_of_equal {s : Scalar} {v : Value} (h : v.equal (.scalar s) = true) (hs : s.Signless)
    (hv : v.Signless) : v = .scalar s := by
  cases v with
  | scalar t => exact congrArg _ (Scalar.eq_of_equal h hv hs)
  | _ => cases h

theorem Value.signless_of_equal_int {i : IntKind} {n : BitVec i.width} {v : Value}
    (h : v.equal (.scalar (.int i n)) = true) : v.Signless := by
  cases v with
  | scalar t =>
    cases t with
    | float q x => cases q <;> cases h
    | complex q z => cases q <;> cases h
    | _ => trivial
  | _ => trivial

theorem Value.signless_of_equal_float {x : Binary p} {v : Value}
    (h : v.equal (.scalar (.float p x)) = true) (hx : x.isZero = false) : v.Signless := by
  cases v with
  | scalar t =>
    cases t with
    | float q y =>
      cases p <;> cases q <;> first | exact Binary.signless_of_eq h hx | cases h
    | complex q z => cases p <;> cases q <;> cases h
    | _ => trivial
  | _ => trivial

end

/-- The scalar is the number one of a kind: for the machine, as a constant and among the operands. Where a
constant counts as equal it is the same. -/
structure Kind.HasUnit (k : Kind) (s : Scalar) : Prop where
  converts : (Value.int 1).convert k = some (.scalar s)
  binds : (Constant.int 1).bind k = .ok (.scalar s)
  resolves (up : Bool) : (if up then Operator.add else .sub).resolve (.bound k) (Constant.int 1).operandKind =
    .ok ⟨k, k, some k, k⟩
  unique (v : Value) (h : v.equal (.scalar s) = true) (hsign : k.isComplex = true → v.Signless) :
    v = .scalar s

theorem Kind.exists_unit {k : Kind} (hk : k.isNumeric = true) : ∃ s, k.HasUnit s := by
  cases k with
  | int i =>
    have hunique (v : Value) (n : BitVec i.width) (h : v.equal (.scalar (.int i n)) = true) :
        v = .scalar (.int i n) := Value.eq_of_equal h trivial (Value.signless_of_equal_int h)
    cases i <;> exact ⟨_, rfl, rfl, fun up => by cases up <;> rfl, fun v h _ => hunique v _ h⟩
  | float p =>
    refine ⟨.float p (.ofInt p 1), rfl, ?_, fun up => by cases p <;> cases up <;> rfl, fun v h _ => ?_⟩
    · rw [← Binary.convert_one]
      rfl
    · have hv := Value.signless_of_equal_float h (Binary.isZero_one p)
      exact Value.eq_of_equal h (Binary.signless_ofInt 1) hv
  | complex p =>
    have hsignless : (Complex.ofReal (Binary.ofInt p 1)).Signless :=
      ⟨Binary.signless_ofInt 1, Binary.signless_zero⟩
    refine ⟨.complex p (.ofReal (.ofInt p 1)), ?_, ?_, fun up => by cases p <;> cases up <;> rfl,
      fun v h hsign => ?_⟩
    · rw [← Complex.convert_one]
      rfl
    · rw [← Binary.convert_one]
      rfl
    · exact Value.eq_of_equal h hsignless (hsign rfl)
  | _ => cases hk

theorem Kind.HasUnit.kind_eq {k : Kind} {one : Scalar} (h : k.HasUnit one) : one.kind = k :=
  Constant.kind_of_bind h.binds

/-- The unit of a kind of integers is small. -/
theorem Kind.HasUnit.fitsInline {k : Kind} {i : IntKind} {n : BitVec i.width} (h : k.HasUnit (.int i n)) :
    Word.fitsInline (i.toInt n) = true := by
  obtain rfl : .int i = k := h.kind_eq
  have hone := h.converts
  cases i <;> cases hone <;> decide +kernel

namespace Compile

open Word (Spell)

variable {env : CompileEnv} {s : CompileState} {cs : Array Value} {k : Kind} {x : Expr} {one : Scalar}
  {up : Bool}

/-! ## Words -/

theorem exists_makeInt (i : IntKind) {n : Int} (hn : Word.fitsInline n = true) :
    ∃ w, Word.makeInt (.int i) n = .ok w := by
  have hcode := Kind.code_lt_of_isInteger (k := .int i) rfl
  have hmod : n % Word.inlineRange < Word.inlineRange := Int.emod_lt_of_pos n (by decide)
  obtain ⟨w, hw⟩ : ∃ w, Word.make .pushInt
      ((Kind.int i).code * Word.inlineRange + (n % Word.inlineRange).toNat) = .ok w := by
    refine ⟨_, if_pos ?_⟩
    rw [Word.inlineRange_eq] at *
    rw [Word.operandRange_eq]
    omega
  refine ⟨w, ?_⟩
  unfold Word.makeInt
  rw [if_neg (by rw [show (Kind.int i).isInteger = true from rfl]; decide), if_neg (by rw [hn]; decide)]
  exact hw

/-- There is a word for a unit, and it pushes the unit. Unless that is an integer the pool must have room. -/
theorem exists_unitWord (h : k.HasUnit one) (hroom : k.isInteger = false → cs.size < Word.operandRange)
    (hsign : k.isComplex = true → ∀ c ∈ cs, c.Signless) : ∃ w i cs', Extends cs cs' ∧ w.decode? = some i ∧
    i.Pushes ∧ (∀ a : Assembly, a.consts = cs →
      (Assembly.valueWord (.scalar one)).exec a = (.ok w, { a with consts := cs' })) ∧
    ∀ (m : Machine) (ctx : Nat) (t : Thread), Extends cs' m.program.consts →
      m.shown? ctx t i = some (.scalar one) := by
  have pooled (hk : k.isInteger = false) : ∃ w i cs', Extends cs cs' ∧ w.decode? = some i ∧ i.Pushes ∧
      (∀ a : Assembly, a.consts = cs →
        (do Task.ofChecked (Word.make .pushConst (← Assembly.poolIndex (.scalar one))) : Asm Word).exec a =
          (.ok w, { a with consts := cs' })) ∧
      ∀ (m : Machine) (ctx : Nat) (t : Thread), Extends cs' m.program.consts →
        m.shown? ctx t i = some (.scalar one) := by
    obtain ⟨index, cs', u, hcs, hle, hu, hone, hindex⟩ := exists_poolIndex (.scalar one) cs
    obtain rfl : u = .scalar one := hone.elim id fun hone => h.unique u hone.2 fun hk => hsign hk u hone.1
    have hw : Word.make .pushConst index = .ok _ := if_pos (Nat.lt_of_le_of_lt hle (hroom hk))
    refine ⟨_, .pushConst index, cs', hcs, Word.decode?_of_make hw fun w h => by rw [Instr.ofOpcode, h],
      .const index, fun a ha => ?_, fun m ctx t hm => hm _ _ hu⟩
    rw [Task.exec_bind_ok (hindex a ha), hw]
    rfl
  have hkind := h.kind_eq
  cases one with
  | int i n =>
    have hn := h.fitsInline
    obtain ⟨w, hw⟩ := exists_makeInt i hn
    refine ⟨w, _, cs, .refl cs, Word.decode?_of_makeInt hw, .inline _ _, fun a ha => ?_, fun m ctx t _ => ?_⟩
    · subst ha
      unfold Assembly.valueWord
      dsimp only
      rw [if_pos hn, hw]
      rfl
    · exact congrArg some (ofWord_toInt i n)
  | _ => exact pooled (hkind ▸ rfl)

/-! ## Code -/

/-- The literal `1`. -/
def unitLiteral : Expr := .lit ⟨.int, "1"⟩

/-- The literal is emitted as the unit of the kind that it is brought to. -/
theorem appends_unitLiteral {w : Word} {cs' : Array Value} (h : k.HasUnit one) (hcs : Extends cs cs')
    (hword : ∀ a : Assembly, a.consts = cs →
      (Assembly.valueWord (.scalar one)).exec a = (.ok w, { a with consts := cs' })) :
    Appends env s (do emit unitLiteral; coerceTop k) cs [] [w] cs'
      [.const (.bound (.scalar one)) .emitted] := by
  have hslot : LeavesSlot env s (emit unitLiteral) cs emptySlot (.int 1) := fun _ _ _ => rfl
  exact appends_fill hslot h.binds hcs hword

/-- Code that steps a target. -/
def stepOn (x : Expr) (up : Bool) : Target → Compile Unit
  | .addr ty => emitAtAddress x ty.kind (if up then .increment else .decrement)
  | .param below ty =>
    match (Value.int 1).convert ty.kind with
    | none => fail (.internal ("no unit value of " ++ ty.kind.text))
    | some one => do
      asm (Assembly.loadArg below)
      discard (asm (Assembly.pushValue one))
      asm (Assembly.builtinOp ty.kind (if up then .add else .sub))
      asm (Assembly.storeArg below)

/-- A step of a place, and the update by one. -/
theorem Located.coincide_step {target : Target} (h : Located env s k x target) (up : Bool)
    (hk : k.isBasic = true) (hone : k.HasUnit one) (hroom : k.isInteger = false → cs.size < Word.operandRange)
    (hsign : k.isComplex = true → ∀ c ∈ cs, c.Signless) : Coincide env s (stepOn x up target)
      (combineOn x (if up then .add else .sub) ⟨k, k, some k, k⟩ (do emit unitLiteral; coerceTop k) target)
      cs := by
  obtain ⟨w, i, cs', hcs, hw, hi, hword, hshown⟩ := exists_unitWord hone hroom hsign
  have hunit : Appends env s (do emit unitLiteral; coerceTop k) cs [] [w] cs'
      [.const (.bound (.scalar one)) .emitted] := appends_unitLiteral hone hcs hword
  cases h with
  | addr h =>
    obtain hnone | ⟨A, L, S, was, wls, wss, hcode⟩ := placeCode_cases hk h
    · exact .inl ⟨hnone.applies cs _, hunit.denies (hnone.applies cs' _).discard_pop⟩
    obtain ⟨wa, hwa, happly⟩ := exists_addrOp k hk (if up then .increment else .decrement)
      (by cases up <;> rfl)
    obtain ⟨wu, hwu, hupdate⟩ := exists_addrOp k hk (.update (if up then .add else .sub))
      (by cases up <;> rfl)
    refine .inr ⟨_, _, _, _, cs, cs', hcode.applies cs _ wa hwa,
      hunit.bind (hcode.applies cs' _ wu hwu).discard_pop,
      hcode.address.append (Word.spell_one happly),
      (Word.spell_one hw).append (hcode.address.append (Word.spell_one hupdate)),
      fun m call ctx u hu _ hm => ?_⟩
    rw [← List.append_assoc]
    refine agree_step hu hcode.locates up hi ?_
    rw [hshown m ctx u hm, hone.converts]
  | @param name func index hname hfind hfunc =>
    have hstep : stepOn (.ident name) up (.param (s.body.numParams - index) (.basic k)) = (do
        asm (Assembly.loadArg (s.body.numParams - index))
        discard (asm (Assembly.pushValue (.scalar one)))
        asm (Assembly.builtinOp k (if up then .add else .sub))
        asm (Assembly.storeArg (s.body.numParams - index))) := by
      have hconverts : (Value.int 1).convert (Ty.basic k).kind = some (.scalar one) := hone.converts
      unfold stepOn
      dsimp only
      rw [hconverts]
      rfl
    rw [hstep]
    obtain ⟨wl, ws, hload, hstore, hwl, hws⟩ | ⟨x, x', hload, hstore⟩ :=
      argWords_cases (s.body.numParams - index)
    · obtain ⟨wo, hwo, hoperator⟩ := exists_builtinOp k hk (if up then .add else .sub)
      have hpush : Appends env s (discard (asm (Assembly.pushValue (.scalar one)))) cs [] [w] cs' [] :=
        appends_pushValue hcs hword
      have htail : Appends env s (do
          asm (Assembly.builtinOp k (if up then .add else .sub))
          asm (Assembly.storeArg (s.body.numParams - index))) cs' [] ([wo] ++ [ws]) cs' [] :=
        (appends_word hwo).bind (appends_word hstore)
      have hspell := (Word.spell_one hwl).append
        ((Word.spell_one hw).append ((Word.spell_one hoperator).append (Word.spell_one hws)))
      exact .inr ⟨_, _, _, _, cs', cs', (appends_word hload).bind (hpush.bind htail),
        (appends_word hload).bind (hunit.bind htail.discard_pop), hspell, hspell,
        fun _ _ _ _ _ _ _ => .refl _⟩
    · exact .inl ⟨(denies_word hload).bind, (denies_word hload).bind⟩

end Compile

end StackScript
