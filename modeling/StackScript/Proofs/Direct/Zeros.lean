import StackScript.Proofs.Folding.Trees

/-!
# Negative zeros

The pool of constants does not tell a negative zero from a positive one. Where no part of a constant
is a negative zero, a value that is like the constant is the constant (`Value.eq_of_alike`). A file is
without signs if that holds of all constants in it, those included that operators are folded to
(`File.Signless`).
-/

namespace StackScript

open Constant

/-! ## Numbers -/

namespace Binary

variable {p : Precision} {x y : Binary p}

/-- The number is no negative zero. -/
def Signless (x : Binary p) : Prop := ¬(x.isZero = true ∧ x.negative = true)

instance (x : Binary p) : Decidable x.Signless := by
  unfold Signless
  infer_instance

/-- Equal numbers of which none is a negative zero are one number. -/
theorem eq_of_eq (h : x.eq y = true) (hx : x.Signless) (hy : y.Signless) : x = y := by
  have hkey : x.key = y.key := by
    simp only [eq, Bool.and_eq_true, beq_iff_eq] at h
    exact h.2
  rw [← ofMagnitude_magnitude x, ← ofMagnitude_magnitude y]
  unfold key at hkey
  unfold Signless isZero at hx hy
  cases hnx : x.negative <;> cases hny : y.negative <;>
    simp only [hnx, hny, if_true, if_false, Bool.false_eq_true, beq_iff_eq, and_true, and_false,
      not_false_eq_true] at hkey hx hy
  · rw [show x.magnitude = y.magnitude by omega]
  · omega
  · omega
  · rw [show x.magnitude = y.magnitude by omega]

theorem negative_ofMagnitude {m : Nat} (hm : m ≤ p.infinity) :
    (ofMagnitude p false m).negative = false := by
  have hinf : p.infinity < 1 <<< (p.width - 1) := by cases p <;> decide
  have hhalf : 1 <<< (p.width - 1) + 1 <<< (p.width - 1) = 2 ^ p.width := by cases p <;> rfl
  unfold negative ofMagnitude
  simp only [Bool.false_eq_true, if_false, Nat.zero_add]
  rw [BitVec.msb_eq_decide, BitVec.toNat_ofNat, Nat.mod_eq_of_lt (a := m) (by omega)]
  have hpow : 2 ^ (p.width - 1) = 1 <<< (p.width - 1) := by rw [Nat.shiftLeft_eq, Nat.one_mul]
  simp only [hpow, decide_eq_false_iff_not]
  omega

theorem signless_zero : (zero p).Signless := fun h => by
  have hneg := h.2
  rw [zero, negative_ofMagnitude (Nat.zero_le _)] at hneg
  cases hneg

/-- No positive integer rounds to zero. -/
theorem nearest_ne_zero {n : Nat} (hn : 0 < n) : nearest p n 1 ≠ 0 := by
  unfold nearest
  rw [if_neg (Nat.ne_of_gt hn)]
  have hexp : binaryExponent n 1 = n.log2 := binaryExponent_shiftLeft hn 0
  have hplace : 1 ≤ (max (binaryExponent n 1 - p.fractionBits) p.lowest - p.lowest).toNat := by
    have hlow : p.lowest < 0 - p.fractionBits := by cases p <;> decide
    rw [hexp]
    omega
  have hpow : 0 < 2 ^ p.fractionBits := by positivity
  have hfield := Nat.mul_le_mul_right (2 ^ p.fractionBits) hplace
  have hinf : 0 < p.infinity := by cases p <;> decide
  simp only [Nat.shiftLeft_eq] at *
  omega

theorem signless_ofInt (n : Int) : (ofInt p n).Signless := fun ⟨hzero, hneg⟩ => by
  unfold ofInt at hzero hneg
  have hmag : nearest p n.natAbs 1 = 0 := by
    have h := hzero
    unfold isZero at h
    rwa [magnitude_ofMagnitude (nearest_le ..), beq_iff_eq] at h
  rcases Nat.eq_zero_or_pos n.natAbs with h | h
  · obtain rfl := Int.natAbs_eq_zero.1 h
    rw [show decide ((0 : Int) < 0) = false from rfl, negative_ofMagnitude (nearest_le ..)] at hneg
    cases hneg
  · exact nearest_ne_zero h hmag

end Binary

namespace Complex

/-- No part of the number is a negative zero. -/
def Signless {p : Precision} (z : Complex p) : Prop := z.re.Signless ∧ z.im.Signless

instance {p : Precision} (z : Complex p) : Decidable z.Signless := by
  unfold Signless
  infer_instance

theorem eq_of_eq {p : Precision} {x y : Complex p} (h : x.eq y = true) (hx : x.Signless)
    (hy : y.Signless) : x = y := by
  obtain ⟨a, b⟩ := x
  obtain ⟨c, d⟩ := y
  simp only [eq, Bool.and_eq_true] at h
  rw [Binary.eq_of_eq h.1 hx.1 hy.1, Binary.eq_of_eq h.2 hx.2 hy.2]

end Complex

/-! ## Values and constants -/

/-- No part of the scalar is a negative zero. -/
def Scalar.Signless : Scalar → Prop
  | .float _ x => x.Signless
  | .complex _ z => z.Signless
  | _ => True

def Value.Signless : Value → Prop
  | .scalar s => s.Signless
  | _ => True

def Constant.Signless : Constant → Prop
  | .bound v => v.Signless
  | .int _ => True
  | .float x => x.Signless
  | .complex z => z.Signless

instance : DecidablePred Scalar.Signless := fun s => by
  cases s <;> unfold Scalar.Signless <;> infer_instance

instance : DecidablePred Constant.Signless := fun c => by
  cases c with
  | bound v => cases v <;> unfold Constant.Signless Value.Signless <;> infer_instance
  | _ => unfold Constant.Signless; infer_instance

theorem IntKind.toInt_injective {k : IntKind} {m n : BitVec k.width} (h : k.toInt m = k.toInt n) :
    m = n := by
  unfold toInt at h
  split at h
  · exact BitVec.eq_of_toInt_eq h
  · exact BitVec.eq_of_toNat_eq (by exact_mod_cast h)

theorem Scalar.eq_of_equal {s t : Scalar} (h : s.equal t = true) (hs : s.Signless)
    (ht : t.Signless) : s = t := by
  unfold equal at h
  split at h
  · rfl
  · rw [eq_of_beq h]
  · rename_i k m l n
    rw [Bool.and_eq_true] at h
    obtain rfl := eq_of_beq h.1
    rw [IntKind.toInt_injective (eq_of_beq h.2)]
  · rw [Binary.eq_of_eq h hs ht]
  · rw [Binary.eq_of_eq h hs ht]
  · rw [Complex.eq_of_eq h hs ht]
  · rw [Complex.eq_of_eq h hs ht]
  · rw [eq_of_beq h]
  · cases h

/-- A value like a scalar is that scalar, if no part of them is a negative zero. -/
theorem Value.eq_of_alike {s : Scalar} {v : Value} (h : (Value.scalar s).Alike v)
    (hs : s.Signless) (hv : v.Signless) : v = .scalar s := by
  obtain ⟨-, rfl | h⟩ := h
  · rfl
  · cases v with
    | scalar t => rw [Scalar.eq_of_equal h hv hs]
    | _ => cases h

namespace Constant

variable {k : Kind}

theorem signless_bindInt {n : Int} {s : Scalar} (hk : k.Wide) (h : bindInt n k = .ok s) :
    s.Signless := by
  cases k with
  | int k =>
    simp only [bindInt] at h
    split at h <;> cases h
    trivial
  | float p =>
    obtain rfl : p = .double := hk
    cases h
    rw [Binary.convert_self (Binary.quiet_ofInt n)]
    exact Binary.signless_ofInt n
  | complex p =>
    obtain rfl : p = .double := hk
    cases h
    rw [Binary.convert_self (Binary.quiet_ofInt n)]
    exact ⟨Binary.signless_ofInt n, Binary.signless_zero⟩
  | _ => cases h

theorem signless_bindFloat {x : Binary .double} {s : Scalar} (hx : x.Quiet) (hs : x.Signless)
    (hk : k.Wide) (h : bindFloat x k = .ok s) : s.Signless := by
  cases k with
  | int k =>
    simp only [bindFloat] at h
    split at h
    · exact signless_bindInt hk h
    · cases h
  | float p =>
    obtain rfl : p = .double := hk
    cases h
    rw [Binary.convert_self hx]
    exact hs
  | complex p =>
    obtain rfl : p = .double := hk
    cases h
    rw [Binary.convert_self hx]
    exact ⟨hs, Binary.signless_zero⟩
  | _ => cases h

theorem signless_bindComplex {z : Complex .double} {s : Scalar} (hz : z.Quiet) (hs : z.Signless)
    (hk : k.Wide) (h : bindComplex z k = .ok s) : s.Signless := by
  unfold bindComplex at h
  split at h
  · rename_i p
    obtain rfl : p = .double := hk
    cases h
    rw [Complex.convert_self hz]
    exact hs
  · split at h
    · exact signless_bindFloat hz.re hs.1 hk h
    · cases h

/-- Binding makes no negative zero. -/
theorem Signless.bind {c : Constant} {v : Value} (hs : c.Signless) (hc : c.Plain) (hk : k.Wide)
    (h : c.bind k = .ok v) : ∃ s, v = .scalar s ∧ s.Signless := by
  cases c with
  | bound u =>
    simp only [Constant.bind] at h
    split at h <;> cases h
    cases hc with
    | scalar _ => exact ⟨_, rfl, hs⟩
  | int n =>
    obtain ⟨s, hs', rfl⟩ := map_scalar_eq_ok h
    exact ⟨s, rfl, signless_bindInt hk hs'⟩
  | float x =>
    obtain ⟨s, hs', rfl⟩ := map_scalar_eq_ok h
    exact ⟨s, rfl, signless_bindFloat hc hs hk hs'⟩
  | complex z =>
    obtain ⟨s, hs', rfl⟩ := map_scalar_eq_ok h
    exact ⟨s, rfl, signless_bindComplex hc hs hk hs'⟩

/-- What the pool gives for a constant is the constant at its kind. -/
theorem Yields.eq {c : Constant} {v : Value} (h : c.Yields v) (hs : c.Signless) (hc : c.Plain)
    (hk : v.kind.Wide) (hv : v.Signless) : c.bind v.kind = .ok v := by
  obtain ⟨w, hw, halike⟩ := h
  obtain ⟨s, rfl, hs⟩ := hs.bind hc hk hw
  rw [hw, Value.eq_of_alike halike hs hv]

end Constant

/-! ## Files -/

/-- The constant that stands for an expression. -/
def Expr.constant? (folds : Bool) : Expr → Option Constant
  | .binary op x y => if folds then (Expr.binary op x y).folded? else none
  | e => e.folded?

/-- No part of an expression is a constant with a negative zero. -/
def Expr.Signless (folds : Bool) : Expr → Prop
  | .binary op x y => (∀ c, (Expr.binary op x y).constant? folds = some c → c.Signless) ∧
    x.Signless folds ∧ y.Signless folds
  | e => ∀ c, e.constant? folds = some c → c.Signless
termination_by structural e => e

mutual

/-- All values in a statement have a property. -/
def Stmt.AllValues (P : Expr → Prop) : Stmt → Prop
  | .expr e => P e
  | .assign _ _ values | .ret values => ∀ e ∈ values, P e
  | .block body => AllValuesOf P body
  | .increment _ | .decrement _ => True
termination_by structural s => s

def AllValuesOf (P : Expr → Prop) : List Stmt → Prop
  | [] => True
  | s :: ss => s.AllValues P ∧ AllValuesOf P ss
termination_by structural ss => ss

end

/-- No constant of the main body has a negative zero. -/
def File.Signless (folds : Bool) (f : File) : Prop := AllValuesOf (Expr.Signless folds) f.stmts

section Decisions

instance (c? : Option Constant) : Decidable (∀ c, c? = some c → c.Signless) :=
  inferInstanceAs (Decidable (∀ c ∈ c?, c.Signless))

def Expr.decideSignless (folds : Bool) : (e : Expr) → Decidable (e.Signless folds)
  | .binary _ x y =>
    have := x.decideSignless folds
    have := y.decideSignless folds
    instDecidableAnd
  | .lit _ | .ident _ | .call .. | .select .. | .funcLit .. | .addrOf _ | .deref _ =>
    inferInstanceAs (Decidable (∀ c, _ = some c → Constant.Signless c))
termination_by structural e => e

instance (folds : Bool) : DecidablePred (Expr.Signless folds) := Expr.decideSignless folds

mutual

def Stmt.decideAllValues (P : Expr → Prop) [DecidablePred P] : (s : Stmt) → Decidable (s.AllValues P)
  | .expr e => inferInstanceAs (Decidable (P e))
  | .assign _ _ values | .ret values => inferInstanceAs (Decidable (∀ e ∈ values, P e))
  | .block body => decideAllValuesOf P body
  | .increment _ | .decrement _ => isTrue trivial
termination_by structural s => s

def decideAllValuesOf (P : Expr → Prop) [DecidablePred P] :
    (ss : List Stmt) → Decidable (AllValuesOf P ss)
  | [] => isTrue trivial
  | s :: ss =>
    have := s.decideAllValues P
    have := decideAllValuesOf P ss
    inferInstanceAs (Decidable (s.AllValues P ∧ AllValuesOf P ss))
termination_by structural ss => ss

end

instance (folds : Bool) (f : File) : Decidable (f.Signless folds) :=
  decideAllValuesOf (Expr.Signless folds) f.stmts

end Decisions

namespace Expr

theorem Signless.constant {folds : Bool} {e : Expr} {c : Constant} (h : e.Signless folds)
    (hc : e.constant? folds = some c) : c.Signless := by
  cases e with
  | binary op x y => exact h.1 c hc
  | _ => exact h c hc

theorem plain_of_folded : ∀ {e : Expr} {c : Constant}, e.folded? = some c → c.Plain
  | .lit _, _, h => Literal.plain_constant (toOption_eq_some h)
  | .ident name, _, h => by
    rw [folded?] at h
    split at h
    · cases h
      exact plain_truth true
    · split at h <;> cases h
      exact plain_truth false
  | .binary .., _, h => by
    obtain ⟨a, b, ha, hb, hfold⟩ := folded?_binary h
    exact plain_fold (plain_of_folded ha) (plain_of_folded hb) hfold
  | .call .., _, h | .select .., _, h | .funcLit .., _, h | .addrOf _, _, h | .deref _, _, h => by
    cases h

theorem folded?_of_constant {folds : Bool} {e : Expr} {c : Constant}
    (h : e.constant? folds = some c) : e.folded? = some c := by
  cases e with
  | binary op x y =>
    cases folds with
    | true => exact h
    | false => cases h
  | _ => exact h

/-- The constant that stands for an expression is plain. -/
theorem plain_of_constant {folds : Bool} {e : Expr} {c : Constant}
    (h : e.constant? folds = some c) : c.Plain := plain_of_folded (folded?_of_constant h)

theorem constant?_binary {op : Operator} {x y : Expr} {a b c : Constant}
    (ha : x.constant? true = some a) (hb : y.constant? true = some b) (h : fold op a b = .ok c) :
    (Expr.binary op x y).constant? true = some c := by
  show (Expr.binary op x y).folded? = some c
  rw [folded?, folded?_of_constant ha, folded?_of_constant hb]
  show (fold op a b).toOption = some c
  rw [h]
  rfl

end Expr

end StackScript
