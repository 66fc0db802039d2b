import StackScript.Evaluation
import StackScript.Proofs.Arithmetic.Wrapping

/-!
# Exact integers behind the values

`Operator.arith?` and `Operator.truth?` are the operators on the integers themselves, which have no
width. On values of an integer kind an operator gives the exact result, wrapped into the range of the
kind; shifts take a count of any size and any integer kind, and a conversion between integer kinds
wraps and does nothing else (`IntKind.arithmetic_wraps`).
-/

namespace StackScript

/-- An evaluation that yields an integer of a kind. -/
def IntKind.Gives (k : IntKind) (r : Except EvalError Value) (n : Int) : Prop :=
  ∃ c : BitVec k.width, r = .ok (.scalar (.int k c)) ∧ k.toInt c = n

namespace Operator

/-- What an arithmetic operator gives on integers, nothing by a divisor zero. The bits of an integer
are those of its two's complement, which go on for ever. -/
def arith? (op : Operator) (a b : Int) : Option Int :=
  match op with
  | .add => some (a + b)
  | .sub => some (a - b)
  | .mul => some (a * b)
  | .quo => if b = 0 then none else some (a.tdiv b)
  | .rem => if b = 0 then none else some (a.tmod b)
  | .and => some (a.land b)
  | .or => some (a.lor b)
  | .xor => some (a.xor b)
  | .andNot => some (a.ldiff b)
  | _ => none

/-- Whether a comparison holds of two integers. -/
def truth? (op : Operator) (a b : Int) : Option Bool :=
  match op with
  | .lt => some (a < b)
  | .le => some (a ≤ b)
  | .gt => some (b < a)
  | .ge => some (b ≤ a)
  | .eq => some (a = b)
  | .ne => some (a ≠ b)
  | _ => none

variable {op : Operator} {k l : IntKind} {a b : BitVec k.width} {n : Int}

/-! ## Operators on two integers -/

theorem eval_int (hop : op.isShift = false) :
    op.eval (.int k) (.scalar (.int k a)) (.scalar (.int k b)) = (op.evalInt k a b).map .scalar := by
  have hkind (c : BitVec k.width) : (Value.scalar (.int k c)).kind = .int k := rfl
  unfold eval
  rw [if_neg (not_not.2 (hkind a)), hop, if_neg Bool.false_ne_true, if_neg (not_not.2 (hkind b))]
  show Except.map _ (op.evalScalars (.int k a) (.int k b)) = _
  rw [evalScalars, dif_pos rfl]

/-- Arithmetic on bit patterns is exact up to wrapping. -/
theorem evalBits_of_arith (h : op.arith? (k.toInt a) (k.toInt b) = some n) :
    ∃ c, op.evalBits k a b = .ok (some c) ∧ k.toInt c = k.wrap n := by
  cases op with
  | add =>
    cases h
    exact ⟨_, rfl, IntKind.toInt_add a b⟩
  | sub =>
    cases h
    exact ⟨_, rfl, IntKind.toInt_sub a b⟩
  | mul =>
    cases h
    exact ⟨_, rfl, IntKind.toInt_mul a b⟩
  | quo =>
    obtain ⟨hb, hn⟩ := Option.ite_none_left_eq_some.1 h
    cases hn
    exact ⟨_, if_neg (IntKind.toInt_eq_zero.not.1 hb), IntKind.toInt_quotient a b⟩
  | rem =>
    obtain ⟨hb, hn⟩ := Option.ite_none_left_eq_some.1 h
    cases hn
    exact ⟨_, if_neg (IntKind.toInt_eq_zero.not.1 hb), IntKind.toInt_remainder a b⟩
  | and =>
    cases h
    exact ⟨_, rfl, IntKind.toInt_eq_wrap_of_eq (IntKind.toInt_and a b)⟩
  | or =>
    cases h
    exact ⟨_, rfl, IntKind.toInt_eq_wrap_of_eq (IntKind.toInt_or a b)⟩
  | xor =>
    cases h
    exact ⟨_, rfl, IntKind.toInt_eq_wrap_of_eq (IntKind.toInt_xor a b)⟩
  | andNot =>
    cases h
    exact ⟨_, rfl, IntKind.toInt_eq_wrap_of_eq (IntKind.toInt_andNot a b)⟩
  | _ => cases h

theorem gives_of_arith (h : op.arith? (k.toInt a) (k.toInt b) = some n) :
    k.Gives (op.eval (.int k) (.scalar (.int k a)) (.scalar (.int k b))) (k.wrap n) := by
  have hop : op.isShift = false := by
    cases op <;> first | rfl | cases h
  obtain ⟨c, heval, hc⟩ := evalBits_of_arith h
  refine ⟨c, ?_, hc⟩
  rw [eval_int hop, evalInt, heval]
  rfl

/-- A comparison of bit patterns, given how their integers are ordered, is that of the integers. -/
theorem compared_of_truth {a b : Int} {t : Bool} (h : op.truth? a b = some t) :
    op.compared (a < b) (b < a) (a = b) = some t := by
  cases op with
  | lt | gt | eq => exact h
  | le =>
    cases h
    refine congrArg some ?_
    rw [← Bool.decide_or, decide_eq_decide]
    omega
  | ge =>
    cases h
    refine congrArg some ?_
    rw [← Bool.decide_or, decide_eq_decide]
    omega
  | ne =>
    cases h
    exact congrArg some decide_not.symm
  | _ => cases h

theorem eval_of_truth {t : Bool} (h : op.truth? (k.toInt a) (k.toInt b) = some t) :
    op.eval (.int k) (.scalar (.int k a)) (.scalar (.int k b)) = .ok (.bool t) := by
  have hop : op.isShift = false := by
    cases op <;> first | rfl | cases h
  have hbits : op.evalBits k a b = .ok none := by
    cases op <;> first | rfl | cases h
  have heq : (a == b) = decide (k.toInt a = k.toInt b) := by
    rw [Bool.beq_eq_decide_eq, decide_eq_decide, IntKind.toInt_inj]
  simp only [eval_int hop, evalInt, hbits, heq]
  show Except.map _ _ = _
  rw [compared_of_truth h]
  rfl

/-! ## Shifts -/

/-- A shift by a count that is not negative. -/
theorem eval_shift {count : BitVec l.width} {n : Nat} (hop : op.isShift = true)
    (hn : l.toInt count = n) :
    op.eval (.int k) (.scalar (.int k a)) (.scalar (.int l count)) =
      .ok (.scalar (.int k (op.shiftBits k a n))) := by
  have hcount : shiftCount (.scalar (.int l count)) = .ok n := by
    rw [shiftCount, hn, if_neg (by omega), Int.toNat_natCast]
  have hkind : (Value.scalar (.int k a)).kind = .int k := rfl
  unfold eval
  rw [if_neg (not_not.2 hkind), if_pos hop, evalShift, hcount]
  rfl

theorem gives_shl {count : BitVec l.width} {n : Nat} (hn : l.toInt count = n) :
    k.Gives (Operator.shl.eval (.int k) (.scalar (.int k a)) (.scalar (.int l count)))
      (k.wrap (k.toInt a * 2 ^ n)) := by
  refine ⟨_, eval_shift rfl hn, ?_⟩
  rw [shiftBits, if_pos rfl, IntKind.toInt_shiftLeft]
  push_cast
  rfl

theorem gives_shr {count : BitVec l.width} {n : Nat} (hn : l.toInt count = n) :
    k.Gives (Operator.shr.eval (.int k) (.scalar (.int k a)) (.scalar (.int l count)))
      ((k.toInt a).fdiv (2 ^ n)) := by
  refine ⟨_, eval_shift rfl hn, ?_⟩
  have hpow : (2 : Int) ^ n = (2 ^ n : Nat) := by push_cast; rfl
  rw [shiftBits, if_neg (by decide), IntKind.toInt_shiftRight, hpow,
    Int.fdiv_eq_ediv_of_nonneg _ (Int.natCast_nonneg _)]

end Operator

/-! ## Conversions -/

theorem Value.convert_int {k : IntKind} (l : IntKind) (a : BitVec k.width) :
    ∃ c, (Value.scalar (.int k a)).convert (.int l) = some (.scalar (.int l c)) ∧
      l.toInt c = l.wrap (k.toInt a) := by
  by_cases hkl : k = l
  · subst hkl
    exact ⟨a, if_pos rfl, IntKind.toInt_eq_wrap_of_eq rfl⟩
  · have hkind : (Scalar.int k a).kind ≠ .int l := fun h => hkl (Kind.int.inj h)
    have hscalar : (Scalar.int k a).convert (.int l) = some (.ofInt l (k.toInt a)) := if_neg hkind
    refine ⟨BitVec.ofInt l.width (k.toInt a), (if_neg hkind).trans ?_, IntKind.toInt_ofInt l _⟩
    exact congrArg (Option.map Value.scalar) hscalar

/-! ## Together -/

/-- On values of an integer kind operators are exact up to the width of the kind. Arithmetic and
conversions wrap around, a comparison is that of the integers, and a shift is by any count. -/
theorem IntKind.arithmetic_wraps (k : IntKind) (a : BitVec k.width) :
    (∀ (op : Operator) (b : BitVec k.width) (n : Int), op.arith? (k.toInt a) (k.toInt b) = some n →
      k.Gives (op.eval (.int k) (.scalar (.int k a)) (.scalar (.int k b))) (k.wrap n)) ∧
    (∀ (op : Operator) (b : BitVec k.width) (t : Bool), op.truth? (k.toInt a) (k.toInt b) = some t →
      op.eval (.int k) (.scalar (.int k a)) (.scalar (.int k b)) = .ok (.bool t)) ∧
    (∀ (l : IntKind) (count : BitVec l.width) (n : Nat), l.toInt count = n →
      k.Gives (Operator.shl.eval (.int k) (.scalar (.int k a)) (.scalar (.int l count)))
        (k.wrap (k.toInt a * 2 ^ n)) ∧
      k.Gives (Operator.shr.eval (.int k) (.scalar (.int k a)) (.scalar (.int l count)))
        ((k.toInt a).fdiv (2 ^ n))) ∧
    ∀ l : IntKind, ∃ c, (Value.scalar (.int k a)).convert (.int l) = some (.scalar (.int l c)) ∧
      l.toInt c = l.wrap (k.toInt a) :=
  ⟨fun _ _ _ hn => Operator.gives_of_arith hn, fun _ _ _ ht => Operator.eval_of_truth ht,
    fun _ _ _ hn => ⟨Operator.gives_shl hn, Operator.gives_shr hn⟩, fun l => Value.convert_int l a⟩

/-- The least eight-bit integer by minus one, shifted right by more than its width, and read as
an integer without a sign. -/
theorem IntKind.arithmetic_wraps_int8 :
    IntKind.int8.Gives (Operator.quo.eval (.int .int8) (.scalar (.int .int8 (-128)))
      (.scalar (.int .int8 (-1)))) (-128) ∧
    IntKind.int8.Gives (Operator.shr.eval (.int .int8) (.scalar (.int .int8 (-128)))
      (.scalar (.int .uint8 200))) (-1) ∧
    Operator.lt.eval (.int .int8) (.scalar (.int .int8 (-128))) (.scalar (.int .int8 127)) =
      .ok (.bool true) ∧
    ∃ c, (Value.scalar (.int .int8 (-128))).convert (.int .uint16) = some (.scalar (.int .uint16 c)) ∧
      IntKind.uint16.toInt c = 65408 := by
  obtain ⟨harith, htruth, hshift, hconvert⟩ := IntKind.arithmetic_wraps .int8 (-128)
  exact ⟨harith .quo (-1) 128 rfl, (hshift .uint8 200 200 rfl).2, htruth .lt 127 true rfl,
    hconvert .uint16⟩

end StackScript
