import StackScript.Proofs.Arithmetic.Wrapping
import StackScript.Proofs.Encoding
import StackScript.Proofs.Folding.Choosing
import StackScript.Proofs.Typing.Values

/-!
# Operators keep to their profiles

An operator that is defined on a kind works on any two values of it, and a shift on any count that is
an integer. It fails by a divisor zero or a negative count, and exactly then
(`Operator.eval_eq_error_iff`). What `Operator.resolve` accepts is what `Operator.eval` works on, and
the kind that it promises is that of the value (`Operator.evaluates_as_resolved`).
-/

namespace StackScript

/-- The integer that a value is. -/
def Value.int? (v : Value) : Option Int := v.scalar?.bind Scalar.int?

/-- Operands brought to the kinds that were chosen for them; a count that stays as it is is any
integer. -/
structure Resolution.Admits (r : Resolution) (x y : Value) : Prop where
  first : x.kind = r.first
  second : ∀ k, r.second = some k → y.kind = k
  count : r.second = none → y.kind.isInteger = true

namespace Operator

variable {op : Operator} {k : Kind} {x y v : Value} {e : EvalError}

/-- The failures left to an operator at the kind `k`, and the second operands that they come of. -/
inductive Fails (op : Operator) (k : Kind) (y : Value) : EvalError → Prop
  | divisionByZero (hop : op = .quo ∨ op = .rem) (hk : k.isInteger = true) (hy : y.int? = some 0) :
    Fails op k y .divisionByZero
  | negativeShift {n : Int} (hop : op.isShift = true) (hn : n < 0) (hy : y.int? = some n) :
    Fails op k y (.negativeShift n)

/-! ## Operands of one kind -/

theorem evalFloat_ok {p : Precision} {a b : Binary p} (h : op.definedOn (.float p) = true) :
    ∃ s, op.evalFloat p a b = .ok s := by
  cases op <;> first | exact ⟨_, rfl⟩ | cases h

theorem evalComplex_ok {p : Precision} {a b : Complex p} (h : op.definedOn (.complex p) = true) :
    ∃ s, op.evalComplex p a b = .ok s := by
  cases op <;> first | exact ⟨_, rfl⟩ | cases h

theorem evalString_ok {a b : String} (h : op.definedOn .string = true) :
    ∃ s, op.evalString a b = .ok s := by
  cases op <;> first | exact ⟨_, rfl⟩ | cases h

theorem evalBool_ok {a b : Bool} (h : op.definedOn .bool = true) : ∃ s, op.evalBool a b = .ok s := by
  cases op <;> first | exact ⟨_, rfl⟩ | cases h

/-- On integers the one failure is a division by zero. -/
theorem evalInt_eq_error_iff {i : IntKind} {a b : BitVec i.width} (hop : op.isShift = false)
    (h : op.definedOn (.int i) = true) :
    op.evalInt i a b = .error e ↔ e = .divisionByZero ∧ (op = .quo ∨ op = .rem) ∧ b = 0 := by
  have divided (hdiv : op = .quo ∨ op = .rem) :
      op.evalInt i a b = .error e ↔ e = .divisionByZero ∧ (op = .quo ∨ op = .rem) ∧ b = 0 := by
    by_cases hb : b = 0
    · have herror : op.evalInt i a b = .error .divisionByZero := by
        obtain rfl | rfl := hdiv <;> rw [evalInt, evalBits, if_pos hb] <;> rfl
      rw [herror]
      exact ⟨fun h => ⟨(Except.error.inj h).symm, hdiv, hb⟩, fun h => h.1 ▸ rfl⟩
    · have hok : ∃ s, op.evalInt i a b = .ok s := by
        obtain rfl | rfl := hdiv <;> rw [evalInt, evalBits, if_neg hb] <;> exact ⟨_, rfl⟩
      obtain ⟨s, hs⟩ := hok
      rw [hs]
      exact iff_of_false (by rintro ⟨⟩) fun h => hb h.2.2
  cases op with
  | quo => exact divided (.inl rfl)
  | rem => exact divided (.inr rfl)
  | logicalAnd | logicalOr => cases h
  | shl | shr => cases hop
  | _ => exact iff_of_false (by rintro ⟨⟩) fun h => by obtain ⟨-, h | h, -⟩ := h <;> cases h

/-- Values of one kind that an operator is defined on. -/
theorem evalScalars_eq_error_iff {s t : Scalar} (hop : op.isShift = false) (hkind : t.kind = s.kind)
    (h : op.definedOn s.kind = true) :
    op.evalScalars s t = .error e ↔ op.Fails s.kind (.scalar t) e := by
  -- no failure is left where the second operand is no integer
  have fine (hok : ∃ u, op.evalScalars s t = .ok u) (ht : t.int? = none) :
      op.evalScalars s t = .error e ↔ op.Fails s.kind (.scalar t) e := by
    obtain ⟨u, hu⟩ := hok
    rw [hu]
    refine iff_of_false (by rintro ⟨⟩) ?_
    rintro (⟨-, -, hy⟩ | ⟨-, -, hy⟩)
    · cases ht.symm.trans hy
    · cases ht.symm.trans hy
  have hbasic := isBasic_of_definedOn h
  cases s with
  | nil => cases hbasic
  | bool a =>
    cases t <;> cases hkind
    exact fine (evalBool_ok h) rfl
  | int i a =>
    cases t with
    | int j b =>
      cases hkind
      rw [evalScalars, dif_pos rfl, evalInt_eq_error_iff hop h]
      have hzero : (Value.scalar (.int i b)).int? = some 0 ↔ b = 0 :=
        Option.some_inj.trans IntKind.toInt_eq_zero
      constructor
      · rintro ⟨rfl, hdiv, hb⟩
        exact .divisionByZero hdiv rfl (hzero.2 hb)
      · rintro (⟨hdiv, -, hy⟩ | ⟨hshift, -, -⟩)
        · exact ⟨rfl, hdiv, hzero.1 hy⟩
        · rw [hop] at hshift
          cases hshift
    | _ => cases hkind
  | float p a =>
    cases t <;> cases hkind
    cases p <;> exact fine (evalFloat_ok h) rfl
  | complex p a =>
    cases t <;> cases hkind
    cases p <;> exact fine (evalComplex_ok h) rfl
  | string a =>
    cases t <;> cases hkind
    exact fine (evalString_ok h) rfl

/-! ## Shifts -/

theorem evalShift_eq_error_iff {i j : IntKind} {a : BitVec i.width} {b : BitVec j.width}
    (hop : op.isShift = true) :
    op.evalShift (.scalar (.int i a)) (.scalar (.int j b)) = .error e ↔
      op.Fails (.int i) (.scalar (.int j b)) e := by
  have hint : (Value.scalar (.int j b)).int? = some (j.toInt b) := rfl
  have hdivision : ¬(op = .quo ∨ op = .rem) := by
    rintro (rfl | rfl) <;> cases hop
  rw [evalShift, shiftCount]
  by_cases hneg : j.toInt b < 0
  · rw [if_pos hneg]
    constructor
    · intro h
      cases h
      exact .negativeShift hop hneg hint
    · rintro (⟨hdiv, -, -⟩ | ⟨-, -, hy⟩)
      · exact (hdivision hdiv).elim
      · cases hint.symm.trans hy
        rfl
  · rw [if_neg hneg]
    refine iff_of_false (by rintro ⟨⟩) ?_
    rintro (⟨hdiv, -, -⟩ | ⟨-, hn, hy⟩)
    · exact (hdivision hdiv).elim
    · cases hint.symm.trans hy
      exact (hneg hn).elim

/-! ## Operators -/

/-- An operator on operands that it is defined on fails by a divisor zero or a negative count only. -/
theorem eval_eq_error_iff (h : op.definedOn k = true) (hx : x.kind = k)
    (hy : if op.isShift then y.kind.isInteger = true else y.kind = k) :
    op.eval k x y = .error e ↔ op.Fails k y e := by
  subst hx
  obtain ⟨s, rfl⟩ := Value.isScalar_of_isBasic (isBasic_of_definedOn h)
  unfold eval
  rw [if_neg (not_not.2 rfl)]
  cases hop : op.isShift with
  | true =>
    rw [if_pos hop] at hy
    rw [if_pos rfl]
    obtain ⟨i, hi⟩ := definedOn_shift hop h
    obtain ⟨t, rfl⟩ := Value.isScalar_of_isBasic (Kind.isBasic_of_isInteger hy)
    cases s <;> cases hi
    cases t <;> cases hy
    exact evalShift_eq_error_iff hop
  | false =>
    rw [hop, if_neg Bool.false_ne_true] at hy
    obtain ⟨t, rfl⟩ := Value.isScalar_of_isBasic (v := y) (hy ▸ isBasic_of_definedOn h)
    rw [if_neg Bool.false_ne_true, if_neg (not_not.2 hy)]
    refine Iff.trans ?_ (evalScalars_eq_error_iff hop hy h)
    show (op.evalScalars s t).map Value.scalar = .error e ↔ _
    cases op.evalScalars s t with
    | ok u => exact iff_of_false (by rintro ⟨⟩) (by rintro ⟨⟩)
    | error e' => exact ⟨fun h => congrArg _ (Except.error.inj h), fun h => congrArg _ (Except.error.inj h)⟩

/-! ## What is accepted and what works -/

theorem definedOn_of_evalScalars {s t u : Scalar} (h : op.evalScalars s t = .ok u) :
    op.definedOn s.kind = true := by
  unfold evalScalars at h
  split at h
  · split at h
    · cases op <;> first | rfl | cases h
    · cases h
  · cases op <;> first | rfl | cases h
  · cases op <;> first | rfl | cases h
  · cases op <;> first | rfl | cases h
  · cases op <;> first | rfl | cases h
  · cases op <;> first | rfl | cases h
  · cases op <;> first | rfl | cases h
  · cases h

/-- Operands of one known kind need no conversion. -/
theorem resolve_of_definedOn (hop : op.isShift = false) (h : op.definedOn k = true) :
    op.resolve (.bound k) (.bound k) = .ok ⟨k, k, some k, op.resultKind k⟩ := by
  unfold resolve
  rw [if_neg (by simp [hop]), commonKind, if_pos rfl]
  show (if (!op.definedOn k) = true then _ else _ : Except OperandError Resolution) = _
  rw [h]
  rfl

theorem resolve_shift {i j : IntKind} (hop : op.isShift = true) :
    op.resolve (.bound (.int i)) (.bound (.int j)) =
      .ok ⟨.int i, .int i, none, op.resultKind (.int i)⟩ := by
  cases op with
  | shl | shr => rfl
  | _ => cases hop

/-- Only integers are shifted, by integers only. -/
theorem eq_int_of_evalShift (h : op.evalShift x y = .ok v) :
    ∃ i a j b, x = .scalar (.int i a) ∧ y = .scalar (.int j b) := by
  obtain ⟨n, hn, h⟩ := bind_eq_ok h
  split at h
  · unfold shiftCount at hn
    split at hn
    · exact ⟨_, _, _, _, rfl, rfl⟩
    · cases hn
  · cases h

/-- Two values that an operator works on are of kinds that it accepts. -/
theorem resolve_of_eval (h : op.eval k x y = .ok v) :
    ∃ r, op.resolve (.bound x.kind) (.bound y.kind) = .ok r ∧ r.operand = k ∧ r.result = v.kind := by
  have hv := kind_of_eval h
  unfold eval at h
  split at h
  · cases h
  rename_i hx
  have hx : x.kind = k := not_not.1 hx
  cases hop : op.isShift with
  | true =>
    rw [hop, if_pos rfl] at h
    obtain ⟨i, a, j, b, rfl, rfl⟩ := eq_int_of_evalShift h
    exact ⟨_, resolve_shift hop, hx, (hx ▸ hv).symm⟩
  | false =>
    rw [hop, if_neg Bool.false_ne_true] at h
    split at h
    · cases h
    rename_i hy
    have hy : y.kind = k := not_not.1 hy
    split at h
    · obtain ⟨u, hu, -⟩ := map_eq_ok h
      have hdefined := definedOn_of_evalScalars hu
      rw [hx, hy]
      exact ⟨_, resolve_of_definedOn hop (hx ▸ hdefined), rfl, hv.symm⟩
    · cases h

/-- A second operand at the kind chosen for it, or a count left as it is, is one that the operator is
defined on. -/
theorem second_of_resolve {kx ky : OperandKind} {r : Resolution} (h : op.resolve kx ky = .ok r)
    (hsecond : ∀ l, r.second = some l → k = l) (hcount : r.second = none → k.isInteger = true) :
    if op.isShift then k.isInteger = true else k = r.operand := by
  cases hop : op.isShift with
  | true =>
    obtain ⟨-, second, hchosen, rfl⟩ := resolve_eq_ok_of_shift hop h
    rw [if_pos rfl]
    cases second with
    | none => exact hcount rfl
    | some l =>
      rw [hsecond l rfl]
      unfold countKind at hchosen
      split at hchosen <;> cases hchosen
      rfl
  | false =>
    obtain ⟨l, -, rfl⟩ := resolve_eq_ok hop h
    exact hsecond l rfl

/-- Typing and evaluation of operators agree. On operands of the kinds that were chosen for them an
operator yields a value of the kind promised or fails by a divisor zero or a negative count, and by these
it does fail; values that it works on are of kinds that it accepts, with the result that it gives. -/
theorem evaluates_as_resolved (op : Operator) :
    (∀ (kx ky : OperandKind) (r : Resolution) (x y : Value), op.resolve kx ky = .ok r → r.Admits x y →
      ((∃ v, op.eval r.operand x y = .ok v ∧ v.kind = r.result) ∨
        ∃ e, op.eval r.operand x y = .error e ∧ op.Fails r.operand y e) ∧
      ∀ e, op.Fails r.operand y e → op.eval r.operand x y = .error e) ∧
    ∀ (k : Kind) (x y v : Value), op.eval k x y = .ok v →
      ∃ r, op.resolve (.bound x.kind) (.bound y.kind) = .ok r ∧ r.operand = k ∧ r.result = v.kind := by
  refine ⟨fun kx ky r x y h hr => ?_, fun k x y v h => resolve_of_eval h⟩
  obtain ⟨hoperand, -, hresult⟩ := operand_of_resolve h
  have herror (e : EvalError) : op.eval r.operand x y = .error e ↔ op.Fails r.operand y e :=
    eval_eq_error_iff (definedOn_of_resolve h) (hr.first.trans hoperand.symm)
      (second_of_resolve h hr.second hr.count)
  refine ⟨?_, fun e => (herror e).2⟩
  cases heval : op.eval r.operand x y with
  | ok v => exact .inl ⟨v, rfl, (kind_of_eval heval).trans hresult.symm⟩
  | error e => exact .inr ⟨e, rfl, (herror e).1 heval⟩

/-- An untyped zero divides a byte, and a byte is shifted by a count of another kind. -/
theorem bytes_evaluate_as_resolved :
    (Operator.rem.resolve (.bound (.int .uint8)) .openInt =
        .ok ⟨.int .uint8, .int .uint8, some (.int .uint8), .int .uint8⟩ ∧
      Operator.rem.eval (.int .uint8) (.scalar (.int .uint8 7)) (.scalar (.int .uint8 0)) =
        .error .divisionByZero) ∧
    ∃ r, Operator.shl.resolve (.bound (.int .uint8)) (.bound (.int .int8)) = .ok r ∧
      r.operand = .int .uint8 ∧ r.result = .int .uint8 := by
  have hresolve : Operator.rem.resolve (.bound (.int .uint8)) .openInt =
      .ok ⟨.int .uint8, .int .uint8, some (.int .uint8), .int .uint8⟩ := rfl
  obtain ⟨-, hfails⟩ := (evaluates_as_resolved .rem).1 _ _ _ (.scalar (.int .uint8 7))
    (.scalar (.int .uint8 0)) hresolve ⟨rfl, fun _ h => Option.some.inj h, nofun⟩
  have hzero : Operator.rem.Fails (.int .uint8) (.scalar (.int .uint8 0)) .divisionByZero :=
    .divisionByZero (.inr rfl) rfl rfl
  have hshift : Operator.shl.eval (.int .uint8) (.scalar (.int .uint8 129)) (.scalar (.int .int8 1)) =
      .ok (.scalar (.int .uint8 2)) := rfl
  exact ⟨⟨hresolve, hfails _ hzero⟩, (evaluates_as_resolved .shl).2 _ _ _ _ hshift⟩

end Operator

end StackScript
