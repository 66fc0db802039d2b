import StackScript.Proofs.Folding.Agreement
import StackScript.Proofs.Folding.Mistakes
import StackScript.Proofs.Translation.Coercing
import StackScript.Proofs.Typing.Operands
import StackScript.Proofs.Typing.Operators

/-!
# Failures of folding

A constant expression that cannot be worked out is a mistake in the file (`ConstantError.OfFile`), and
folding says so, with one exception: by a bound count that is negative the operator fails as it would
at run time, which is no error of a file (`Constant.fold_eq_evaluation_iff`).
-/

namespace StackScript

namespace Constant

variable {op : Operator} {c x y : Constant} {k : Kind} {v : Value} {e : ConstantError}

/-! ## Operands -/

theorem ofFile_coerce (h : c.coerce k = .error e) : e.OfFile := by
  cases c with
  | bound v =>
    simp only [coerce] at h
    split at h <;> cases h
    trivial
  | int n => exact ofFile_bind ((coerce_eq_bind rfl k).symm.trans h)
  | float r => exact ofFile_bind ((coerce_eq_bind rfl k).symm.trans h)
  | complex z => exact ofFile_bind ((coerce_eq_bind rfl k).symm.trans h)

theorem kind_of_coerce (h : c.coerce k = .ok v) : v.kind = k := by
  cases c with
  | bound u => exact Value.kind_of_convert (coerce_bound_eq_ok h)
  | int n => exact kind_of_bind ((coerce_eq_bind rfl k).symm.trans h)
  | float r => exact kind_of_bind ((coerce_eq_bind rfl k).symm.trans h)
  | complex z => exact kind_of_bind ((coerce_eq_bind rfl k).symm.trans h)

theorem ofFile_integer (h : c.integer = .error e) : e.OfFile := by
  have hfloat {r : Binary .double} (h : (float r).integer = .error e) : e.OfFile := by
    rw [integer] at h
    split at h <;> cases h
    trivial
  cases c with
  | bound v =>
    rw [integer] at h
    cases h
    trivial
  | int n =>
    rw [integer] at h
    cases h
  | float r => exact hfloat h
  | complex z =>
    rw [integer] at h
    split at h
    · exact hfloat h
    · cases h
      trivial

/-! ## Folding untyped constants -/

theorem ofFile_checked {n : Int} (h : checked op n = .error (.error e)) : e.OfFile := by
  unfold checked at h
  split at h <;> cases h
  trivial

theorem ofFile_foldInt {a b : Int} (h : foldInt op a b = .error (.error e)) : e.OfFile := by
  have hdivided {n : Int}
      (h : (if b = 0 then .error (.error .divisionByZero) else divided a b n : Folded) =
        .error (.error e)) : e.OfFile := by
    unfold divided at h
    split at h
    · cases h
      trivial
    · split at h <;> cases h
  unfold foldInt at h
  split at h
  · exact ofFile_checked h
  · exact ofFile_checked h
  · exact ofFile_checked h
  · exact hdivided h
  · exact hdivided h
  · cases h
  · cases h
  · cases h
  · cases h
  · split at h <;> cases h
    trivial

theorem ofFile_foldFloat {a b : Binary .double} (h : foldFloat op a b = .error (.error e)) :
    e.OfFile := by
  have hfinite {r : Binary .double} (h : finite op r = .error (.error e)) : e.OfFile := by
    unfold finite at h
    split at h <;> cases h
    trivial
  unfold foldFloat at h
  split at h
  · exact hfinite h
  · exact hfinite h
  · exact hfinite h
  · split at h
    · cases h
      trivial
    · exact hfinite h
  · split at h <;> cases h
    trivial

theorem ofFile_foldComplex {a b : Complex .double} (h : foldComplex op a b = .error (.error e)) :
    e.OfFile := by
  unfold foldComplex at h
  split at h
  · cases h
  · cases h
  · cases h
  · split at h <;> cases h
    trivial
  · cases h
  · cases h
  · cases h
    trivial

theorem mapError_error_eq {α : Type} {r : Except ConstantError α}
    (h : r.mapError Stop.error = .error (.error e)) : r = .error e := by
  obtain ⟨_, hr, heq⟩ := mapError_eq_error h
  cases heq
  exact hr

theorem ofFile_foldShift (h : foldShift op x y = .error (.error e)) : e.OfFile := by
  unfold foldShift at h
  obtain h | ⟨a, -, h⟩ := bind_eq_error h
  · exact ofFile_integer (mapError_error_eq h)
  obtain h | ⟨n, -, h⟩ := bind_eq_error h
  · exact ofFile_integer (mapError_error_eq h)
  split at h
  · cases h
    trivial
  unfold shifted at h
  split at h
  · split at h
    · exact ofFile_checked h
    · split at h <;> cases h
      trivial
  · cases h

theorem ofFile_fold_open (hx : x.operandKind.isBound = false) (hy : y.operandKind.isBound = false)
    (h : fold op x y = .error (.error e)) : e.OfFile := by
  unfold fold at h
  rw [if_neg (by simp [hx, hy])] at h
  split at h
  · exact ofFile_foldShift h
  split at h
  · exact ofFile_foldComplex h
  · exact ofFile_foldComplex h
  · exact ofFile_foldFloat h
  · exact ofFile_foldFloat h
  · obtain h | ⟨a, -, h⟩ := bind_eq_error h
    · exact ofFile_integer (mapError_error_eq h)
    obtain h | ⟨b, -, h⟩ := bind_eq_error h
    · exact ofFile_integer (mapError_error_eq h)
    exact ofFile_foldInt h

/-! ## Folding with a bound operand -/

variable {r : Resolution} {w : Value}

theorem kind_of_coerceSecond {k : Kind} (h : y.coerceSecond (some k) = .ok w) : w.kind = k :=
  kind_of_coerce h

theorem coerced_admits (hr : op.resolve x.operandKind y.operandKind = .ok r)
    (hv : x.coerce r.first = .ok v) (hw : y.coerceSecond r.second = .ok w) : r.Admits v w := by
  refine ⟨kind_of_coerce hv, fun k hk => ?_, fun hnone => ?_⟩
  · exact kind_of_coerceSecond (hk ▸ hw)
  · obtain ⟨i, hi⟩ := Operator.isInteger_of_resolve hr hnone
    rw [hnone] at hw
    have hkind : w.kind = y.operandKind.default := kind_of_bind hw
    rw [hkind, hi]
    rfl

/-- On coerced operands an operator fails as it does on any operands of their kinds. -/
theorem eval_coerced_iff {e : EvalError} (hr : op.resolve x.operandKind y.operandKind = .ok r)
    (hv : x.coerce r.first = .ok v) (hw : y.coerceSecond r.second = .ok w) :
    op.eval r.operand v w = .error e ↔ op.Fails r.operand w e :=
  have hadmits := coerced_admits hr hv hw
  Operator.eval_eq_error_iff (Operator.definedOn_of_resolve hr)
    (hadmits.first.trans (Operator.operand_of_resolve hr).1.symm)
    (Operator.second_of_resolve hr hadmits.second hadmits.count)

/-- What folding makes of the outcome of an operator. -/
def reported : Except EvalError Value → Except ConstantError Constant
  | .ok u => .ok (bound u)
  | .error .divisionByZero => .error .divisionByZero
  | .error e => .error (.evaluation e)

theorem reported_eq_evaluation_iff {r : Except EvalError Value} {e : EvalError} :
    reported r = .error (.evaluation e) ↔ e ≠ .divisionByZero ∧ r = .error e := by
  cases r with
  | ok u => exact ⟨by rintro ⟨⟩, by rintro ⟨-, ⟨⟩⟩⟩
  | error e' =>
    constructor
    · intro h
      cases e' <;> cases h <;> exact ⟨by rintro ⟨⟩, rfl⟩
    · rintro ⟨hne, ⟨⟩⟩
      cases e <;> first | rfl | exact absurd rfl hne

theorem foldBound_eq : foldBound op x y = (do
    let r ← (op.resolve x.operandKind y.operandKind).mapError .operands
    let v ← x.coerce r.first
    let w ← y.coerceSecond r.second
    reported (op.eval r.operand v w)) := by
  unfold foldBound
  congr 1
  funext r
  congr 1
  funext v
  cases r.second <;> rfl

/-- What the operator says of operands brought to its kinds is passed on. -/
theorem foldBound_eq_evaluation_iff {e : EvalError} :
    foldBound op x y = .error (.evaluation e) ↔ e ≠ .divisionByZero ∧ ∃ r v w,
      op.resolve x.operandKind y.operandKind = .ok r ∧ x.coerce r.first = .ok v ∧
      y.coerceSecond r.second = .ok w ∧ op.eval r.operand v w = .error e := by
  rw [foldBound_eq]
  constructor
  · intro h
    obtain h | ⟨r, hr, h⟩ := bind_eq_error h
    · obtain ⟨_, -, heq⟩ := mapError_eq_error h
      cases heq
    obtain h | ⟨v, hv, h⟩ := bind_eq_error h
    · exact (ofFile_coerce h).elim
    obtain h | ⟨w, hw, h⟩ := bind_eq_error h
    · cases hsecond : r.second with
      | some k =>
        rw [hsecond] at h
        exact (ofFile_coerce h).elim
      | none =>
        rw [hsecond] at h
        exact (ofFile_bind h).elim
    obtain ⟨hne, heval⟩ := reported_eq_evaluation_iff.1 h
    exact ⟨hne, r, v, w, mapError_eq_ok hr, hv, hw, heval⟩
  · rintro ⟨hne, r, v, w, hr, hv, hw, heval⟩
    show ((op.resolve x.operandKind y.operandKind).mapError _ >>= _) = _
    rw [hr]
    show (x.coerce r.first >>= _) = _
    rw [hv]
    show (y.coerceSecond r.second >>= _) = _
    rw [hw]
    exact reported_eq_evaluation_iff.2 ⟨hne, heval⟩

/-! ## The failure that is left -/

/-- A shift by a bound count that is negative, of something that can be shifted. -/
structure ShiftsBack (op : Operator) (x y : Constant) (n : Int) : Prop where
  shift : op.isShift = true
  count : ∃ v, y = .bound v ∧ v.int? = some n
  negative : n < 0
  shifted : ∃ r v, op.resolve x.operandKind y.operandKind = .ok r ∧ x.coerce r.first = .ok v

theorem int_nonneg_of_unsigned {i : IntKind} {n : Int} (hk : v.kind = .int i) (hi : i.signed = false)
    (hn : v.int? = some n) : 0 ≤ n := by
  obtain ⟨s, rfl⟩ := Value.isScalar_of_isBasic (v := v) (by rw [hk]; rfl)
  cases s <;> cases hk
  cases hn
  rw [IntKind.toInt_of_unsigned hi]
  exact Int.natCast_nonneg _

/-- A count that is negative was bound, and is used as it is. -/
theorem coerced_count_iff {n : Int} (hop : op.isShift = true) (hneg : n < 0)
    (hr : op.resolve x.operandKind y.operandKind = .ok r) (hn : w.int? = some n) :
    y.coerceSecond r.second = .ok w ↔ y = .bound w := by
  obtain ⟨-, second, hsecond, rfl⟩ := Operator.resolve_eq_ok_of_shift hop hr
  cases y with
  | bound u =>
    change op.countKind (.bound u.kind) = _ at hsecond
    have hnone : second = none := by
      cases hk : u.kind <;> rw [hk] at hsecond <;> cases hsecond
      rfl
    subst hnone
    show (bound u).bindDefault = _ ↔ _
    rw [bindDefault_bound, Except.ok.injEq, bound.injEq]
  -- an open count is bound to an unsigned kind, which has no negative numbers
  | _ =>
    refine iff_of_false (fun hw => ?_) (by rintro ⟨⟩)
    cases hsecond
    have := int_nonneg_of_unsigned (kind_of_coerceSecond hw) rfl hn
    omega

/-- Folding fails as an operator at run time does by a bound count that is negative, and by nothing
else. -/
theorem fold_eq_evaluation_iff {e : EvalError} :
    fold op x y = .error (.error (.evaluation e)) ↔ ∃ n, ShiftsBack op x y n ∧ e = .negativeShift n := by
  constructor
  · intro h
    by_cases hbound : x.operandKind.isBound = true ∨ y.operandKind.isBound = true
    · unfold fold at h
      rw [if_pos (by simpa using hbound)] at h
      obtain ⟨hne, r, v, w, hr, hv, hw, heval⟩ :=
        foldBound_eq_evaluation_iff.1 (mapError_error_eq h)
      obtain hdiv | ⟨hop, hneg, hn⟩ := (eval_coerced_iff hr hv hw).1 heval
      · exact absurd rfl hne
      · have hy := (coerced_count_iff hop hneg hr hn).1 hw
        exact ⟨_, ⟨hop, ⟨w, hy, hn⟩, hneg, r, v, hr, hv⟩, rfl⟩
    · simp only [not_or, Bool.not_eq_true] at hbound
      exact (ofFile_fold_open hbound.1 hbound.2 h).elim
  · rintro ⟨n, ⟨hop, ⟨w, rfl, hn⟩, hneg, r, v, hr, hv⟩, rfl⟩
    have hw : (bound w).coerceSecond r.second = .ok w := (coerced_count_iff hop hneg hr hn).2 rfl
    have heval : op.eval r.operand v w = .error (.negativeShift n) :=
      (eval_coerced_iff hr hv hw).2 (.negativeShift hop hneg hn)
    have hfold : foldBound op x (.bound w) = .error (.evaluation (.negativeShift n)) :=
      foldBound_eq_evaluation_iff.2 ⟨by rintro ⟨⟩, r, v, w, hr, hv, hw, heval⟩
    unfold fold
    rw [if_pos (by simp [operandKind, OperandKind.isBound]), hfold]
    rfl

end Constant

end StackScript
