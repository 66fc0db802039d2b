import StackScript.Proofs.Running.Operators
import StackScript.Proofs.Translation.Judgment

/-!
# Constants are scalars

The constants of a file are numbers, texts and truth values: literals are, and folding and binding
give nothing else.
-/

namespace StackScript

/-- All constants of a pool are scalars. -/
def AllScalar (consts : Array Value) : Prop := ∀ v ∈ consts, v.IsScalar

theorem AllScalar.push {consts : Array Value} {v : Value} (h : AllScalar consts)
    (hv : v.IsScalar) : AllScalar (consts.push v) := fun u hu => by
  obtain hu | rfl := Array.mem_push.1 hu
  · exact h u hu
  · exact hv

namespace Constant

/-- The constant is an untyped number or a scalar. -/
def Simple : Constant → Prop
  | bound v => v.IsScalar
  | _ => True

theorem Simple.of_isBound {c : Constant} (h : c.operandKind.isBound = false) : c.Simple := by
  cases c with
  | bound v => cases h
  | _ => trivial

theorem Simple.bind {c : Constant} {k : Kind} {v : Value} (hc : c.Simple)
    (h : c.bind k = .ok v) : v.IsScalar := by
  have scalar {r : Except ConstantError Scalar} (hr : r.map Value.scalar = .ok v) :
      v.IsScalar := by
    obtain ⟨x, -, rfl⟩ := map_eq_ok hr
    exact ⟨x, rfl⟩
  cases c with
  | bound w =>
    unfold Constant.bind at h
    dsimp only at h
    split at h <;> cases h
    exact hc
  | int n => exact scalar h
  | float x => exact scalar h
  | complex z => exact scalar h

theorem simple_truth (b : Bool) : (truth b).Simple := ⟨.bool b, rfl⟩

section Fold

variable {op : Operator} {c : Constant}

theorem simple_of_compared {lt gt eq : Bool} {e : Stop ConstantError}
    (h : (match op.compared lt gt eq with
      | some b => .ok (truth b)
      | none => .error e : Folded) = .ok c) : c.Simple := by
  split at h <;> cases h
  exact simple_truth _

theorem simple_of_checked {n : Int} (h : checked op n = .ok c) : c.Simple := by
  unfold checked at h
  split at h <;> cases h
  trivial

theorem simple_of_foldInt {a b : Int} (h : foldInt op a b = .ok c) : c.Simple := by
  have divided {n : Int}
      (h : (if b = 0 then .error (.error .divisionByZero) else divided a b n : Folded) = .ok c) :
      c.Simple := by
    unfold Constant.divided at h
    split at h
    · cases h
    split at h <;> cases h
    trivial
  unfold foldInt at h
  split at h
  · exact simple_of_checked h
  · exact simple_of_checked h
  · exact simple_of_checked h
  · exact divided h
  · exact divided h
  · cases h; trivial
  · cases h; trivial
  · cases h; trivial
  · cases h; trivial
  · exact simple_of_compared h

theorem simple_of_foldFloat {x y : Binary .double} (h : foldFloat op x y = .ok c) : c.Simple := by
  have finite {z : Binary .double} (h : finite op z = .ok c) : c.Simple := by
    unfold Constant.finite at h
    split at h <;> cases h
    trivial
  unfold foldFloat at h
  split at h
  · exact finite h
  · exact finite h
  · exact finite h
  · split at h
    · cases h
    · exact finite h
  · exact simple_of_compared h

theorem simple_of_foldComplex {x y : Complex .double} (h : foldComplex op x y = .ok c) :
    c.Simple := by
  unfold foldComplex at h
  split at h
  · cases h; trivial
  · cases h; trivial
  · cases h; trivial
  · split at h <;> cases h
    trivial
  · cases h; exact simple_truth _
  · cases h; exact simple_truth _
  · cases h

theorem simple_of_foldShift {x y : Constant} (h : foldShift op x y = .ok c) : c.Simple := by
  unfold foldShift at h
  obtain ⟨a, -, h⟩ := bind_eq_ok h
  obtain ⟨count, -, h⟩ := bind_eq_ok h
  split at h
  · cases h
  unfold shifted at h
  split at h
  · split at h
    · exact simple_of_checked h
    · split at h <;> cases h
      trivial
  · cases h
    trivial

theorem simple_of_foldBound {x y : Constant} (h : foldBound op x y = .ok c) : c.Simple := by
  unfold foldBound at h
  obtain ⟨r, -, h⟩ := bind_eq_ok h
  obtain ⟨v, -, h⟩ := bind_eq_ok h
  dsimp only at h
  split at h
  all_goals
    obtain ⟨w, -, h⟩ := bind_eq_ok h
    split at h <;> cases h
    exact Operator.isScalar_of_eval ‹_›

/-- Folding gives simple constants. -/
theorem simple_of_fold {x y : Constant} (h : fold op x y = .ok c) : c.Simple := by
  unfold fold at h
  split at h
  · exact simple_of_foldBound (mapError_eq_ok h)
  split at h
  · exact simple_of_foldShift h
  split at h
  · exact simple_of_foldComplex h
  · exact simple_of_foldComplex h
  · exact simple_of_foldFloat h
  · exact simple_of_foldFloat h
  · obtain ⟨a, -, h⟩ := bind_eq_ok h
    obtain ⟨b, -, h⟩ := bind_eq_ok h
    exact simple_of_foldInt h

end Fold

end Constant

theorem Literal.simple_of_constant {l : Literal} {c : Constant} (h : l.constant = .ok c) :
    c.Simple := by
  unfold Literal.constant at h
  replace h := mapError_eq_ok h
  split at h
  · split at h <;> cases h
    trivial
  · split at h <;> cases h
    trivial
  · obtain ⟨x, -, rfl⟩ := map_eq_ok h
    trivial
  · obtain ⟨x, -, rfl⟩ := map_eq_ok h
    exact ⟨_, rfl⟩
  · obtain ⟨x, -, rfl⟩ := map_eq_ok h
    exact ⟨_, rfl⟩

end StackScript
