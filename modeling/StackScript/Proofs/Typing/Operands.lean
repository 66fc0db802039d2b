import StackScript.Proofs.Typing.Flow
import StackScript.Proofs.Typing.Operators

/-!
# Operands of operators

Where the compiler lets an operator work at a kind, its operands are of that kind once they are
converted, and a shift count is an integer (`Operator.applies_of_settle`). On such values the operator
fails by a division by zero or a negative count only (`Operator.Applies.fails`). Constants are of basic
kinds (`Means.isBasic`).
-/

namespace StackScript

/-! ## Conversions -/

theorem Scalar.kind_of_convert {s t : Scalar} {k : Kind} (h : s.convert k = some t) : t.kind = k := by
  unfold Scalar.convert at h
  split at h
  · rename_i hk
    cases h
    exact hk
  · split at h
    · cases k <;> cases h <;> rfl
    · cases k <;> cases h <;> rfl
    · split at h <;> cases h
      rfl
    · cases h

theorem Value.kind_of_convert {v w : Value} {k : Kind} (h : v.convert k = some w) : w.kind = k := by
  unfold Value.convert at h
  split at h
  · rename_i hk
    cases h
    exact hk
  · obtain ⟨t, ht, rfl⟩ := Option.map_eq_some_iff.1 h
    obtain ⟨s, -, ht⟩ := Option.bind_eq_some_iff.1 ht
    exact Scalar.kind_of_convert ht

/-! ## Constants -/

namespace Constant

variable {op : Operator} {c x y : Constant} {v : Value}

/-- A constant of a known kind has a basic one. -/
def HasBasic : Constant → Prop
  | bound v => v.kind.isBasic = true
  | _ => True

theorem hasBasic_truth (b : Bool) : (truth b).HasBasic := rfl

theorem hasBasic_of_compared {lt gt eq : Bool} {e : Stop ConstantError}
    (h : (match op.compared lt gt eq with
      | some b => .ok (truth b)
      | none => .error e : Folded) = .ok c) : c.HasBasic := by
  split at h <;> cases h
  exact hasBasic_truth _

theorem hasBasic_of_checked {n : Int} (h : checked op n = .ok c) : c.HasBasic := by
  unfold checked at h
  split at h <;> cases h
  trivial

theorem hasBasic_of_foldInt {a b : Int} (h : foldInt op a b = .ok c) : c.HasBasic := by
  have divided {n : Int}
      (h : (if b = 0 then .error (.error .divisionByZero) else divided a b n : Folded) = .ok c) :
      c.HasBasic := by
    unfold Constant.divided at h
    split at h
    · cases h
    · split at h <;> cases h
      trivial
  unfold foldInt at h
  split at h
  · exact hasBasic_of_checked h
  · exact hasBasic_of_checked h
  · exact hasBasic_of_checked h
  · exact divided h
  · exact divided h
  · cases h; trivial
  · cases h; trivial
  · cases h; trivial
  · cases h; trivial
  · exact hasBasic_of_compared h

theorem hasBasic_of_foldFloat {a b : Binary .double} (h : foldFloat op a b = .ok c) :
    c.HasBasic := by
  have finite {z : Binary .double} (h : finite op z = .ok c) : c.HasBasic := by
    unfold Constant.finite at h
    split at h <;> cases h
    trivial
  unfold foldFloat at h
  split at h
  · exact finite h
  · exact finite h
  · exact finite h
  · split at h
    · cases h
    · exact finite h
  · exact hasBasic_of_compared h

theorem hasBasic_of_foldComplex {a b : Complex .double} (h : foldComplex op a b = .ok c) :
    c.HasBasic := by
  unfold foldComplex at h
  split at h
  · cases h; trivial
  · cases h; trivial
  · cases h; trivial
  · split at h <;> cases h
    trivial
  · cases h; exact hasBasic_truth _
  · cases h; exact hasBasic_truth _
  · cases h

theorem hasBasic_of_foldShift (h : foldShift op x y = .ok c) : c.HasBasic := by
  unfold foldShift at h
  obtain ⟨a, -, h⟩ := bind_eq_ok h
  obtain ⟨count, -, h⟩ := bind_eq_ok h
  split at h
  · cases h
  unfold shifted at h
  split at h
  · split at h
    · exact hasBasic_of_checked h
    · split at h <;> cases h
      trivial
  · cases h
    trivial

theorem isBasic_resultKind {k : Kind} (h : k.isBasic = true) : (op.resultKind k).isBasic = true := by
  unfold Operator.resultKind
  split
  · rfl
  · exact h

theorem hasBasic_of_foldBound (h : foldBound op x y = .ok c) : c.HasBasic := by
  unfold foldBound at h
  obtain ⟨r, hr, h⟩ := bind_eq_ok h
  obtain ⟨v, -, h⟩ := bind_eq_ok h
  have hbasic := (Operator.operand_of_resolve (mapError_eq_ok hr)).2.1
  extract_lets evaluated at h
  have hevaluated {w : Value} (h : evaluated w = .ok c) : c.HasBasic := by
    simp only [evaluated] at h
    split at h
    next u heval =>
      cases h
      show u.kind.isBasic = true
      rw [Operator.kind_of_eval heval]
      exact isBasic_resultKind hbasic
    next => cases h
    next => cases h
  cases hsecond : r.second with
  | some k =>
    rw [hsecond] at h
    obtain ⟨w, -, h⟩ := bind_eq_ok h
    exact hevaluated h
  | none =>
    rw [hsecond] at h
    obtain ⟨w, -, h⟩ := bind_eq_ok h
    exact hevaluated h

theorem hasBasic_of_fold (h : fold op x y = .ok c) : c.HasBasic := by
  unfold fold at h
  split at h
  · exact hasBasic_of_foldBound (mapError_eq_ok h)
  · split at h
    · exact hasBasic_of_foldShift h
    · split at h
      · exact hasBasic_of_foldComplex h
      · exact hasBasic_of_foldComplex h
      · exact hasBasic_of_foldFloat h
      · exact hasBasic_of_foldFloat h
      · obtain ⟨a, -, h⟩ := bind_eq_ok h
        obtain ⟨b, -, h⟩ := bind_eq_ok h
        exact hasBasic_of_foldInt h

theorem hasBasic_of_literal {l : Literal} (h : l.constant = .ok c) : c.HasBasic := by
  unfold Literal.constant at h
  have h := mapError_eq_ok h
  split at h
  · split at h <;> cases h
    trivial
  · split at h <;> cases h
    trivial
  · cases hx : Literal.readImag l.text <;> rw [hx] at h <;> cases h
    trivial
  · cases hx : Literal.readChar l.text <;> rw [hx] at h <;> cases h
    rfl
  · cases hx : Literal.unquote l.text <;> rw [hx] at h <;> cases h
    rfl

/-- A constant that has no kind can be given a basic one only. -/
theorem isBasic_of_bind {k : Kind} (hc : c.HasBasic) (h : c.bind k = .ok v) : k.isBasic = true := by
  have hreal {x : Binary .double} {s : Scalar} (h : bindFloat x k = .ok s) : k.isBasic = true := by
    cases k <;> first | rfl | cases h
  cases c with
  | bound w =>
    simp only [bind] at h
    split at h
    · rename_i hk
      exact hk ▸ hc
    · cases h
  | int n => cases k <;> first | rfl | cases h
  | float x => cases k <;> first | rfl | cases h
  | complex z =>
    cases k with
    | complex => rfl
    | _ =>
      simp only [bind, bindComplex] at h
      split at h
      · cases hs : bindFloat z.re _ with
        | error e =>
          rw [hs] at h
          cases h
        | ok s => exact hreal hs
      · cases h

theorem HasBasic.yields (hc : c.HasBasic) (h : c.Yields v) : v.kind.isBasic = true := by
  obtain ⟨w, hw, -⟩ := h
  exact isBasic_of_bind hc hw

end Constant

theorem Means.hasBasic {S : Site} {e : Expr} {c : Constant} (h : Means S e c) : c.HasBasic := by
  cases h with
  | lit h => exact Constant.hasBasic_of_literal h
  | truth h => exact Constant.hasBasic_truth _
  | folded _ _ _ h => exact Constant.hasBasic_of_fold h

/-! ## Operators -/

namespace Operator

variable {op : Operator} {k : Kind} {x y : Value} {t u : Ty} {kx ky : OperandKind} {r : Resolution}

/-- Operands that were brought to the kinds which the compiler chose. -/
theorem applies_of_resolve (h : op.resolve kx ky = .ok r) (ht : t.kind = r.first)
    (hu : ∀ k, r.second = some k → u.kind = k) (hcount : r.second = none → u.kind.isInteger = true) :
    op.Applies r.operand t u :=
  ⟨definedOn_of_resolve h, ht.trans (operand_of_resolve h).1.symm, second_of_resolve h hu hcount⟩

/-- A shift count that stays as it is was an integer. -/
theorem isInteger_of_resolve (h : op.resolve kx ky = .ok r) (hnone : r.second = none) :
    ∃ i, ky = .bound (.int i) := by
  cases hop : op.isShift with
  | false =>
    obtain ⟨k, -, rfl⟩ := resolve_eq_ok hop h
    cases hnone
  | true =>
    obtain ⟨-, second, hsecond, rfl⟩ := resolve_eq_ok_of_shift hop h
    cases hnone
    unfold countKind at hsecond
    split at hsecond <;> cases hsecond
    exact ⟨_, rfl⟩

theorem isInteger_of_settle (h : op.settle kx ky = .ok r) (hnone : r.second = none) :
    ∃ i, ky = .bound (.int i) := by
  unfold settle at h
  split at h
  · exact isInteger_of_resolve h hnone
  · rename_i hopen
    have hop : op.isShift = false := by
      cases hop : op.isShift with
      | false => rfl
      | true => exact absurd (by simp [hop]) hopen
    obtain ⟨k, -, rfl⟩ := resolve_eq_ok hop h
    cases hnone

/-- An operator on operands of the right kinds fails in the ways that are left to it. -/
theorem Applies.fails {e : EvalError} (h : op.Applies k t u) (hx : x.kind = t.kind)
    (hy : y.kind = u.kind) (he : op.eval k x y = .error e) : op.Fails k y e :=
  (eval_eq_error_iff h.defined (hx.trans h.first) (hy ▸ h.second)).1 he

end Operator

end StackScript
