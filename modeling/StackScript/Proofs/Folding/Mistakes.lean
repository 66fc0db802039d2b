import StackScript.Constant.Literal
import StackScript.Proofs.Ensures

/-!
# Constants that are mistakes

Where a constant cannot be read or takes no value of a kind the file is at fault, and the error says so.
-/

namespace StackScript

/-- The error is a mistake in the file. -/
def ConstantError.OfFile : ConstantError → Prop
  | .evaluation _ => False
  | _ => True

namespace Constant

variable {c : Constant} {k : Kind} {e : ConstantError}

theorem ofFile_bindInt {n : Int} (h : bindInt n k = .error e) : e.OfFile := by
  unfold bindInt at h
  split at h
  · split at h <;> cases h
    trivial
  all_goals cases h
  trivial

theorem ofFile_bindFloat {r : Binary .double} (h : bindFloat r k = .error e) : e.OfFile := by
  unfold bindFloat at h
  split at h
  · split at h
    · exact ofFile_bindInt h
    · cases h
      trivial
  all_goals cases h
  trivial

theorem ofFile_bindComplex {z : Complex .double} (h : bindComplex z k = .error e) : e.OfFile := by
  unfold bindComplex at h
  split at h
  · cases h
  · split at h
    · exact ofFile_bindFloat h
    · cases h
      trivial

theorem ofFile_bind (h : c.bind k = .error e) : e.OfFile := by
  have hscalar {r : Except ConstantError Scalar} (hr : ∀ e, r = .error e → e.OfFile)
      (h : r.map Value.scalar = .error e) : e.OfFile := by
    cases r with
    | ok s => cases h
    | error e' => exact hr _ (congrArg _ (Except.error.inj h))
  cases c with
  | bound v =>
    unfold bind at h
    dsimp only at h
    split at h <;> cases h
    trivial
  | int n => exact hscalar (fun _ => ofFile_bindInt) h
  | float r => exact hscalar (fun _ => ofFile_bindFloat) h
  | complex z => exact hscalar (fun _ => ofFile_bindComplex) h

end Constant

theorem Literal.ofFile_constant {l : Literal} {e : ConstantError} (h : l.constant = .error e) :
    e.OfFile := by
  unfold Literal.constant at h
  obtain ⟨why, -, rfl⟩ := mapError_eq_error h
  trivial

end StackScript
