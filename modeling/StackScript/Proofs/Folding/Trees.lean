import StackScript.Constant.Literal
import StackScript.Proofs.Folding.Agreement
import StackScript.Tree

/-!
# Trees of literals

A tree of literals, truth values and operators folds to a constant (`Expr.folded?`), and comes to a
constant or a value when its operators wait until run time (`Expr.Computes`). The two agree
(`Expr.stands_of_folded`), by induction on the tree.
-/

namespace StackScript

open Constant

/-! ## Operators keep values plain -/

section Plain

variable {op : Operator} {k : Kind} {v w u : Value} {a b c : Constant}

theorem Operator.plain_evalInt {i : IntKind} {x y : BitVec i.width} {s : Scalar}
    (h : op.evalInt i x y = .ok s) : s.Plain := by
  unfold evalInt at h
  obtain ⟨z?, -, h⟩ := bind_eq_ok h
  cases z? with
  | some z =>
    cases h
    trivial
  | none =>
    simp only at h
    split at h <;> cases h
    trivial

theorem Operator.plain_evalFloat {x y : Binary .double} {s : Scalar}
    (h : op.evalFloat .double x y = .ok s) : s.Plain := by
  unfold evalFloat at h
  split at h
  · cases h
    exact ⟨rfl, Binary.quiet_add x y⟩
  · cases h
    exact ⟨rfl, Binary.quiet_sub x y⟩
  · cases h
    exact ⟨rfl, Binary.quiet_mul x y⟩
  · cases h
    exact ⟨rfl, Binary.quiet_div x y⟩
  · split at h <;> cases h
    trivial

theorem Operator.plain_evalComplex {x y : Complex .double} {s : Scalar}
    (h : op.evalComplex .double x y = .ok s) : s.Plain := by
  unfold evalComplex at h
  split at h <;> cases h
  · exact ⟨rfl, Complex.quiet_add x y⟩
  · exact ⟨rfl, Complex.quiet_sub x y⟩
  · exact ⟨rfl, Complex.quiet_mul x y⟩
  · exact ⟨rfl, Complex.quiet_div x y⟩
  · trivial
  · trivial

theorem Operator.plain_evalScalars {s t r : Scalar} (hs : s.Plain)
    (h : op.evalScalars s t = .ok r) : r.Plain := by
  unfold evalScalars at h
  split at h
  · split at h
    · exact plain_evalInt h
    · cases h
  · cases hs.1
  · exact plain_evalFloat h
  · cases hs.1
  · exact plain_evalComplex h
  · unfold evalString at h
    split at h
    · cases h
      trivial
    · split at h <;> cases h
      trivial
  · unfold evalBool at h
    split at h <;> cases h <;> trivial
  · cases h

theorem Operator.plain_eval (hv : v.Plain) (h : op.eval k v w = .ok u) : u.Plain := by
  unfold eval at h
  split at h
  · cases h
  · split at h
    · unfold evalShift at h
      obtain ⟨n, -, h⟩ := bind_eq_ok h
      split at h <;> cases h
      exact .scalar True.intro
    · split at h
      · cases h
      · split at h
        · cases hv with
          | scalar hs =>
            obtain ⟨r, hr, rfl⟩ := map_eq_ok h
            exact .scalar (plain_evalScalars hs hr)
        · cases h

theorem Constant.plain_finite {x : Binary .double} (h : finite op x = .ok c) : c.Plain := by
  unfold finite at h
  split at h
  · rename_i hx
    cases h
    exact Binary.quiet_of_isFinite hx
  · cases h

theorem Constant.plain_truth (t : Bool) : (truth t).Plain := .scalar True.intro

theorem Constant.plain_foldInt {m n : Int} (h : foldInt op m n = .ok c) : c.Plain := by
  unfold foldInt at h
  split at h
  · exact checked_eq_ok h ▸ True.intro
  · exact checked_eq_ok h ▸ True.intro
  · exact checked_eq_ok h ▸ True.intro
  · split at h
    · cases h
    · exact divided_eq_ok h ▸ True.intro
  · split at h
    · cases h
    · exact divided_eq_ok h ▸ True.intro
  · cases h
    trivial
  · cases h
    trivial
  · cases h
    trivial
  · cases h
    trivial
  · split at h <;> cases h
    exact plain_truth _

theorem Constant.plain_foldFloat {x y : Binary .double} (h : foldFloat op x y = .ok c) :
    c.Plain := by
  unfold foldFloat at h
  split at h
  · exact plain_finite h
  · exact plain_finite h
  · exact plain_finite h
  · split at h
    · cases h
    · exact plain_finite h
  · split at h <;> cases h
    exact plain_truth _

theorem Constant.plain_foldComplex {x y : Complex .double} (h : foldComplex op x y = .ok c) :
    c.Plain := by
  unfold foldComplex at h
  split at h
  · cases h
    exact Complex.quiet_add x y
  · cases h
    exact Complex.quiet_sub x y
  · cases h
    exact Complex.quiet_mul x y
  · split at h <;> cases h
    exact Complex.quiet_div x y
  · cases h
    exact plain_truth _
  · cases h
    exact plain_truth _
  · cases h

theorem Constant.plain_shifted {m : Int} {n : Nat} (h : shifted op m n = .ok c) : c.Plain := by
  unfold shifted at h
  split at h
  · split at h
    · exact checked_eq_ok h ▸ True.intro
    · split at h <;> cases h
      trivial
  · cases h
    trivial

/-- An operator folds plain constants to a plain one. -/
theorem Constant.plain_fold (ha : a.Plain) (hb : b.Plain) (h : fold op a b = .ok c) : c.Plain := by
  by_cases hbound : a.operandKind.isBound = true ∨ b.operandKind.isBound = true
  · unfold fold at h
    rw [if_pos (by simpa using hbound)] at h
    obtain ⟨r, u, hr, ⟨hv, -, heval⟩, rfl⟩ := foldBound_eq_ok (mapError_eq_ok h)
    exact Operator.plain_eval (ha.coerce (Operator.wide_resolve ha.wide hb.wide hr).1 hv) heval
  · simp only [not_or, Bool.not_eq_true] at hbound
    cases hop : op.isShift with
    | false =>
      cases foldsOpen_of_fold hop hbound.1 hbound.2 h with
      | int _ _ h => exact plain_foldInt h
      | float _ _ _ h => exact plain_foldFloat h
      | complex _ h => exact plain_foldComplex h
    | true =>
      unfold fold at h
      rw [if_neg (by simp [hbound]), if_pos hop] at h
      obtain ⟨m, n, -, -, -, h⟩ := foldShift_eq_ok h
      exact plain_shifted h

end Plain

/-! ## Literals -/

theorem Literal.isFinite_of_readFloat {s : String} {x : Binary .double}
    (h : readFloat s = some x) : x.isFinite = true := (Option.filter_eq_some_iff.1 h).2

theorem Literal.plain_constant {l : Literal} {c : Constant} (h : l.constant = .ok c) : c.Plain := by
  unfold constant at h
  replace h := mapError_eq_ok h
  split at h
  · split at h <;> cases h
    trivial
  · split at h <;> cases h
    exact Binary.quiet_of_isFinite (isFinite_of_readFloat ‹_›)
  · obtain ⟨x, hx, rfl⟩ := map_eq_ok h
    refine ⟨Binary.quiet_zero, ?_⟩
    unfold readImag at hx
    split at hx
    · simp only at hx
      split at hx
      · cases hx
        exact Binary.quiet_of_isFinite (isFinite_of_readFloat ‹_›)
      · split at hx <;> cases hx
        exact Binary.quiet_ofInt _
    · cases hx
  · obtain ⟨ch, -, rfl⟩ := map_eq_ok h
    exact .scalar True.intro
  · obtain ⟨t, -, rfl⟩ := map_eq_ok h
    exact .scalar True.intro

/-! ## Trees -/

namespace Expr

/-- The constant that a tree of literals, truth values and operators folds to. -/
def folded? : Expr → Option Constant
  | .lit l => l.constant.toOption
  | .ident name =>
    if name = toString true then some (truth true)
    else if name = toString false then some (truth false)
    else none
  | .binary op x y => do
    let a ← x.folded?
    let b ← y.folded?
    (fold op a b).toOption
  | _ => none
termination_by structural e => e

/-- What a tree comes to when its operators wait until run time. -/
inductive Computes : Expr → Constant → Prop
  | lit {l : Literal} {c : Constant} (h : l.constant = .ok c) : Computes (.lit l) c
  | truth (t : Bool) : Computes (.ident (toString t)) (Constant.truth t)
  | binary {op : Operator} {x y : Expr} {a b : Constant} {r : Resolution} {u : Value}
    (hx : Computes x a) (hy : Computes y b)
    (hr : op.settle a.operandKind b.operandKind = .ok r) (h : Works op r a b u) :
    Computes (.binary op x y) (.bound u)

/-- The first tree is the second one, or a part of one of its operands. -/
inductive Part : Expr → Expr → Prop
  | self (e : Expr) : Part e e
  | left {op : Operator} {x y z : Expr} (h : Part z x) : Part z (.binary op x y)
  | right {op : Operator} {x y z : Expr} (h : Part z y) : Part z (.binary op x y)

/-- The first tree is a part of an operand of the second one. -/
def ProperPart (z : Expr) : Expr → Prop
  | .binary _ x y => Part z x ∨ Part z y
  | _ => False

/-- All operators in a tree that fold to an open integer fold to one of kind `int`. -/
def FoldsToInts (e : Expr) : Prop :=
  ∀ op x y n, Part (.binary op x y) e → (Expr.binary op x y).folded? = some (.int n) →
    IntKind.int.Holds n

theorem toOption_eq_some {α ε : Type} {r : Except ε α} {a : α} (h : r.toOption = some a) :
    r = .ok a := by
  cases r with
  | ok b =>
    cases h
    rfl
  | error e => cases h

theorem folded?_binary {op : Operator} {x y : Expr} {c : Constant}
    (h : (Expr.binary op x y).folded? = some c) :
    ∃ a b, x.folded? = some a ∧ y.folded? = some b ∧ fold op a b = .ok c := by
  rw [folded?] at h
  obtain ⟨a, ha, h⟩ := Option.bind_eq_some_iff.1 h
  obtain ⟨b, hb, h⟩ := Option.bind_eq_some_iff.1 h
  exact ⟨a, b, ha, hb, toOption_eq_some h⟩

theorem folded?_truth (t : Bool) : (Expr.ident (toString t)).folded? = some (truth t) := by
  cases t <;> rfl

/-- What a tree comes to at run time stands for the constant it folds to. -/
theorem stands_of_folded {e : Expr} {c d : Constant} (hc : e.folded? = some c)
    (hd : e.Computes d) (hfits : e.FoldsToInts) : c.Plain ∧ c.Stands d := by
  induction hd generalizing c with
  | lit h =>
    rw [folded?, h] at hc
    cases hc
    exact ⟨Literal.plain_constant h, .inl rfl⟩
  | truth t =>
    rw [folded?_truth] at hc
    cases hc
    exact ⟨plain_truth t, .inl rfl⟩
  | binary hx hy hr hw ihx ihy =>
    obtain ⟨a, b, ha, hb, hfold⟩ := folded?_binary hc
    obtain ⟨hpa, sa⟩ := ihx ha fun op x y n h => hfits op x y n (.left h)
    obtain ⟨hpb, sb⟩ := ihy hb fun op x y n h => hfits op x y n (.right h)
    refine ⟨plain_fold hpa hpb hfold, .inr ⟨_, ?_, rfl⟩⟩
    exact bindDefault_of_fold hpa hpb sa sb hfold hr hw fun n hn =>
      hfits _ _ _ n (.self _) (hn ▸ hc)

end Expr

end StackScript
