import StackScript.Evaluation
import StackScript.Proofs.Ensures

/-!
# Kinds of results

An operator that yields a value yields a scalar, of the kind that its profile promises.
-/

namespace StackScript

/-- A value of a basic kind. -/
def Value.IsScalar (v : Value) : Prop := ∃ x : Scalar, v = .scalar x

theorem Value.isScalar_ofWord (other : IntKind) (k : Kind) (n : Int) :
    (Value.ofWord other k n).IsScalar := by
  cases k <;> exact ⟨_, rfl⟩

theorem Value.isScalar_of_convert {v w : Value} {k : Kind} (hv : v.IsScalar)
    (h : v.convert k = some w) : w.IsScalar := by
  unfold Value.convert at h
  split at h
  · cases h
    exact hv
  · obtain ⟨x, -, rfl⟩ := Option.map_eq_some_iff.1 h
    exact ⟨x, rfl⟩

/-- Each numeric kind has a unit. -/
theorem Value.exists_convert_one {k : Kind} (h : k.isNumeric = true) :
    ∃ one, (Value.int 1).convert k = some one := by
  cases k with
  | int j => cases j <;> exact ⟨_, rfl⟩
  | float p => cases p <;> exact ⟨_, rfl⟩
  | complex p => cases p <;> exact ⟨_, rfl⟩
  | _ => cases h

/-- Operators give scalars. -/
theorem Operator.isScalar_of_eval {op : Operator} {k : Kind} {v w u : Value}
    (h : op.eval k v w = .ok u) : u.IsScalar := by
  unfold Operator.eval at h
  split at h
  · cases h
  split at h
  · obtain ⟨n, -, h⟩ := bind_eq_ok h
    split at h <;> cases h
    exact ⟨_, rfl⟩
  split at h
  · cases h
  split at h
  · obtain ⟨x, -, rfl⟩ := map_eq_ok h
    exact ⟨x, rfl⟩
  · cases h

namespace Operator

variable {op : Operator} {k : Kind} {v w u : Value} {s t r : Scalar}

theorem isComparison_of_compared {lt gt eq b : Bool} (h : op.compared lt gt eq = some b) :
    op.isComparison = true := by
  cases op <;> first | rfl | cases h

/-- The truth of a comparison is of the kind promised. -/
theorem resultKind_of_compared {lt gt eq b : Bool} (h : op.compared lt gt eq = some b) :
    (Scalar.bool b).kind = op.resultKind k := by
  rw [resultKind, if_pos (isComparison_of_compared h)]
  rfl

theorem kind_of_evalInt {i : IntKind} {a b : BitVec i.width} (h : op.evalInt i a b = .ok r) :
    r.kind = op.resultKind (.int i) := by
  unfold evalInt at h
  cases hbits : op.evalBits i a b with
  | error e =>
    rw [hbits] at h
    cases h
  | ok c? =>
    rw [hbits] at h
    cases c? with
    | some c =>
      cases h
      have hnot : op.isComparison = false := by
        cases op <;> first | rfl | cases hbits
      rw [resultKind, hnot]
      rfl
    | none =>
      simp only [bind, Except.bind] at h
      split at h <;> cases h
      exact resultKind_of_compared ‹_›

theorem kind_of_evalFloat {p : Precision} {x y : Binary p} (h : op.evalFloat p x y = .ok r) :
    r.kind = op.resultKind (.float p) := by
  unfold evalFloat at h
  split at h
  · cases h; rfl
  · cases h; rfl
  · cases h; rfl
  · cases h; rfl
  · split at h <;> cases h
    exact resultKind_of_compared ‹_›

theorem kind_of_evalComplex {p : Precision} {x y : Complex p} (h : op.evalComplex p x y = .ok r) :
    r.kind = op.resultKind (.complex p) := by
  unfold evalComplex at h
  split at h <;> cases h <;> rfl

theorem kind_of_evalString {x y : String} (h : op.evalString x y = .ok r) :
    r.kind = op.resultKind .string := by
  unfold evalString at h
  split at h
  · cases h; rfl
  · split at h <;> cases h
    exact resultKind_of_compared ‹_›

theorem kind_of_evalBool {x y : Bool} (h : op.evalBool x y = .ok r) :
    r.kind = op.resultKind .bool := by
  unfold evalBool at h
  split at h <;> cases h <;> rfl

theorem kind_of_evalScalars (h : op.evalScalars s t = .ok r) : r.kind = op.resultKind s.kind := by
  unfold evalScalars at h
  split at h
  · split at h
    · exact kind_of_evalInt h
    · cases h
  · exact kind_of_evalFloat h
  · exact kind_of_evalFloat h
  · exact kind_of_evalComplex h
  · exact kind_of_evalComplex h
  · exact kind_of_evalString h
  · exact kind_of_evalBool h
  · cases h

theorem isComparison_of_isShift (h : op.isShift = true) : op.isComparison = false := by
  cases op <;> first | rfl | cases h

theorem kind_of_evalShift (hop : op.isShift = true) (h : op.evalShift v w = .ok u) :
    u.kind = op.resultKind v.kind := by
  rw [resultKind, isComparison_of_isShift hop]
  unfold evalShift at h
  cases hn : shiftCount w with
  | error e =>
    rw [hn] at h
    cases h
  | ok n =>
    rw [hn] at h
    cases v with
    | scalar s =>
      cases s with
      | int k a =>
        cases h
        rfl
      | _ => cases h
    | _ => cases h

/-- An operator yields a value of the kind promised. -/
theorem kind_of_eval (h : op.eval k v w = .ok u) : u.kind = op.resultKind k := by
  unfold eval at h
  split at h
  · cases h
  · rename_i hk
    have hk : v.kind = k := Decidable.not_not.1 hk
    subst hk
    split at h
    · exact kind_of_evalShift ‹_› h
    · split at h
      · cases h
      · split at h
        · rename_i s t _
          cases hr : op.evalScalars s t with
          | error e =>
            rw [hr] at h
            cases h
          | ok r =>
            rw [hr] at h
            cases h
            exact kind_of_evalScalars hr
        · cases h

end Operator

end StackScript
