import StackScript.Proofs.Folding.Plain
import StackScript.Proofs.Translation.LookAhead

/-!
# The kinds chosen for open operands

An operand that was computed at run time has the default kind of the constant that it would have
been folded to. The kinds that an operator chooses for it are those it chooses for the constant, up
to the count of a shift (`resolve_stands`), and for two open operands they are the default kind of
the one of higher rank (`settle_open`).
-/

namespace StackScript

namespace OperandKind

/-- The kind of an operand that stands for one of the given kind. -/
def Stands (x x' : OperandKind) : Prop := x' = x ∨ x' = .bound x.default

theorem eq_of_stands_bound {k : Kind} {x' : OperandKind} (h : Stands (.bound k) x') :
    x' = .bound k := by
  rcases h with rfl | rfl <;> rfl

theorem rank_default_pos {x : OperandKind} (h : x.isBound = false) : 0 < x.default.rank := by
  cases x with
  | bound k => cases h
  | _ => decide

end OperandKind

namespace Operator

variable {op : Operator} {x y x' y' : OperandKind} {r r' : Resolution}

/-! ## Inversions -/

theorem resolve_eq_ok_of_shift (hop : op.isShift = true) (h : op.resolve x y = .ok r) :
    op.definedOn (shiftKind x) = true ∧ ∃ second, op.countKind y = .ok second ∧
      r = ⟨shiftKind x, shiftKind x, second, op.resultKind (shiftKind x)⟩ := by
  unfold resolve at h
  rw [if_pos hop] at h
  by_cases hdef : op.definedOn (shiftKind x) = true
  · simp only [hdef, Bool.not_true, Bool.false_eq_true, if_false] at h
    obtain ⟨second, hsecond, h⟩ := bind_eq_ok h
    cases h
    exact ⟨hdef, second, hsecond, rfl⟩
  · simp only [hdef, Bool.not_false, if_true] at h
    cases h

theorem resolve_eq_ok (hop : op.isShift = false) (h : op.resolve x y = .ok r) :
    ∃ k, op.commonKind x y = .ok k ∧ r = ⟨k, k, some k, op.resultKind k⟩ := by
  unfold resolve at h
  rw [if_neg (by simp [hop])] at h
  obtain ⟨k, hk, h⟩ := bind_eq_ok h
  refine ⟨k, hk, ?_⟩
  by_cases hdef : op.definedOn k = true
  · simp only [hdef, Bool.not_true, Bool.false_eq_true, if_false] at h
    cases h
    rfl
  · simp only [hdef, Bool.not_false, if_true] at h
    cases h

theorem definedOn_of_resolve (h : op.resolve x y = .ok r) : op.definedOn r.operand = true := by
  unfold resolve at h
  split at h
  · dsimp only at h
    split at h
    · cases h
    · obtain ⟨second, -, h⟩ := bind_eq_ok h
      cases h
      simpa using ‹¬(!_) = true›
  · obtain ⟨k, -, h⟩ := bind_eq_ok h
    dsimp only at h
    split at h
    · cases h
    · cases h
      simpa using ‹¬(!_) = true›

theorem operand_of_resolve (h : op.resolve x y = .ok r) :
    r.operand = r.first ∧ r.operand.isBasic = true ∧ r.result = op.resultKind r.operand := by
  have hbasic := isBasic_of_definedOn (definedOn_of_resolve h)
  cases hop : op.isShift with
  | true =>
    obtain ⟨-, second, -, rfl⟩ := resolve_eq_ok_of_shift hop h
    exact ⟨rfl, hbasic, rfl⟩
  | false =>
    obtain ⟨k, -, rfl⟩ := resolve_eq_ok hop h
    exact ⟨rfl, hbasic, rfl⟩

theorem definedOn_shift {k : Kind} (hop : op.isShift = true) (h : op.definedOn k = true) :
    ∃ i, k = .int i := by
  cases op with
  | shl | shr =>
    cases k with
    | int i => exact ⟨i, rfl⟩
    | _ => cases h
  | _ => cases hop

/-! ## One operand of a known kind -/

theorem commonKind_bound_open {k : Kind} (hy : y.isBound = false) :
    op.commonKind (.bound k) y = .ok (op.widenOpen k y) := by
  cases y with
  | bound l => cases hy
  | _ => rfl

theorem commonKind_open_bound {k : Kind} (hx : x.isBound = false) :
    op.commonKind x (.bound k) = .ok (op.widenOpen k x) := by
  cases x with
  | bound l => cases hx
  | _ => rfl

/-- Kinds that go together give the one of higher rank. -/
theorem commonKind_bound {k l m : Kind} (h : op.commonKind (.bound k) (.bound l) = .ok m) :
    k = l ∧ m = k ∨ op.widens = true ∧ 0 < k.rank ∧ 0 < l.rank ∧ k.rank ≠ l.rank ∧
      m = if l.rank < k.rank then k else l := by
  simp only [commonKind] at h
  split at h
  · rename_i heq
    cases h
    exact .inl ⟨heq, rfl⟩
  · split at h
    · rename_i hwide
      cases h
      exact .inr ⟨hwide.1, hwide.2.1, hwide.2.2.1, hwide.2.2.2, rfl⟩
    · cases h

/-- An open kind widens a known one as its default kind does. -/
theorem widenOpen_of_bound {k m : Kind}
    (h : op.commonKind (.bound k) (.bound y.default) = .ok m) :
    op.widenOpen k y = m ∧ y.rank ≤ m.rank := by
  have hrank := y.rank_default
  unfold widenOpen
  obtain ⟨rfl, rfl⟩ | ⟨hwide, hk, -, hne, rfl⟩ := commonKind_bound h
  · rw [if_neg (by omega)]
    exact ⟨rfl, Nat.le_of_eq hrank.symm⟩
  · rw [hrank] at hne
    by_cases hlt : k.rank < y.rank
    · rw [if_pos ⟨hwide, hk, hlt⟩, if_neg (by omega)]
      exact ⟨rfl, Nat.le_of_eq hrank.symm⟩
    · rw [if_neg fun h => hlt h.2.2, if_pos (by omega)]
      exact ⟨rfl, by omega⟩

theorem commonKind_comm {k l m : Kind} (h : op.commonKind (.bound k) (.bound l) = .ok m) :
    op.commonKind (.bound l) (.bound k) = .ok m := by
  obtain ⟨rfl, rfl⟩ | ⟨hwide, hk, hl, hne, rfl⟩ := commonKind_bound h
  · exact h
  · have hkl : l ≠ k := fun h => hne (h ▸ rfl)
    simp only [commonKind, if_neg hkl, if_pos (show _ ∧ _ ∧ _ ∧ _ from ⟨hwide, hl, hk, hne.symm⟩)]
    rcases Nat.lt_or_gt_of_ne hne with hlt | hlt
    · rw [if_pos hlt, if_neg (by omega)]
    · rw [if_neg (by omega), if_pos hlt]

/-- If one operand is of a known kind, the common kind is that of the operands they stand for. -/
theorem commonKind_stands {k k' : Kind} (hx : x.Stands x') (hy : y.Stands y')
    (hbound : x.isBound = true ∨ y.isBound = true) (h : op.commonKind x y = .ok k)
    (h' : op.commonKind x' y' = .ok k') :
    k' = k ∧ (x' ≠ x → x.rank ≤ k.rank) ∧ (y' ≠ y → y.rank ≤ k.rank) := by
  cases hbx : x.isBound with
  | true =>
    obtain ⟨l, rfl⟩ : ∃ l, x = .bound l := by
      cases x with
      | bound l => exact ⟨l, rfl⟩
      | _ => cases hbx
    cases OperandKind.eq_of_stands_bound hx
    rcases hy with rfl | rfl
    · cases h.symm.trans h'
      exact ⟨rfl, fun hne => absurd rfl hne, fun hne => absurd rfl hne⟩
    · cases hby : y.isBound with
      | true =>
        cases y with
        | bound m =>
          cases h.symm.trans h'
          exact ⟨rfl, fun hne => absurd rfl hne, fun hne => absurd rfl hne⟩
        | _ => cases hby
      | false =>
        obtain ⟨hwiden, hrank⟩ := widenOpen_of_bound h'
        cases (commonKind_bound_open hby).symm.trans h
        exact ⟨hwiden.symm, fun hne => absurd rfl hne, fun _ => hwiden ▸ hrank⟩
  | false =>
    obtain ⟨l, rfl⟩ : ∃ l, y = .bound l := by
      rw [hbx] at hbound
      cases y with
      | bound l => exact ⟨l, rfl⟩
      | _ => simp [OperandKind.isBound] at hbound
    cases OperandKind.eq_of_stands_bound hy
    rcases hx with rfl | rfl
    · cases h.symm.trans h'
      exact ⟨rfl, fun hne => absurd rfl hne, fun hne => absurd rfl hne⟩
    · obtain ⟨hwiden, hrank⟩ := widenOpen_of_bound (commonKind_comm h')
      cases (commonKind_open_bound hbx).symm.trans h
      exact ⟨hwiden.symm, fun _ => hwiden ▸ hrank, fun hne => absurd rfl hne⟩

/-! ## Shifts -/

theorem shiftKind_stands (hop : op.isShift = true) (hx : x.Stands x')
    (hdef : op.definedOn (shiftKind x') = true) :
    shiftKind x' = shiftKind x ∧ (x' ≠ x → x.rank ≤ (shiftKind x).rank) := by
  rcases hx with rfl | rfl
  · exact ⟨rfl, fun hne => absurd rfl hne⟩
  · obtain ⟨i, hi⟩ := definedOn_shift hop hdef
    cases x with
    | bound k => exact ⟨rfl, fun hne => absurd rfl hne⟩
    | openInt => exact ⟨rfl, fun _ => Nat.le_refl _⟩
    | openFloat => cases hi
    | openComplex => cases hi

/-- How the count of a shift is taken. -/
theorem countKind_stands {second second' : Option Kind} (hy : y.Stands y')
    (h : op.countKind y = .ok second) (h' : op.countKind y' = .ok second') :
    y' = y ∧ second' = second ∨
      y = .openInt ∧ y' = .bound (.int .int) ∧ second = some (.int .uint) ∧ second' = none := by
  rcases hy with rfl | rfl
  · cases h.symm.trans h'
    exact .inl ⟨rfl, rfl⟩
  · cases y with
    | bound k =>
      cases h.symm.trans h'
      exact .inl ⟨rfl, rfl⟩
    | openInt =>
      cases h
      cases h'
      exact .inr ⟨rfl, rfl, rfl, rfl⟩
    | openFloat => cases h'
    | openComplex => cases h'

/-- The kinds chosen when one operand is of a known kind. -/
theorem resolve_stands (hx : x.Stands x') (hy : y.Stands y')
    (hbound : x.isBound = true ∨ y.isBound = true) (h : op.resolve x y = .ok r)
    (h' : op.resolve x' y' = .ok r') :
    r'.operand = r.operand ∧ r'.first = r.first ∧ (x' ≠ x → x.rank ≤ r.first.rank) ∧
      ((∃ k, r.second = some k ∧ r'.second = some k ∧ (y' ≠ y → y.rank ≤ k.rank)) ∨
        y' = y ∧ r'.second = r.second ∨
        op.isShift = true ∧ y = .openInt ∧ y' = .bound (.int .int) ∧
          r.second = some (.int .uint) ∧ r'.second = none) := by
  cases hop : op.isShift with
  | true =>
    obtain ⟨-, second, hsecond, rfl⟩ := resolve_eq_ok_of_shift hop h
    obtain ⟨hdef', second', hsecond', rfl⟩ := resolve_eq_ok_of_shift hop h'
    obtain ⟨hkind, hrank⟩ := shiftKind_stands hop hx hdef'
    refine ⟨hkind, hkind, hrank, .inr ?_⟩
    exact (countKind_stands hy hsecond hsecond').imp id fun h => ⟨rfl, h⟩
  | false =>
    obtain ⟨k, hk, rfl⟩ := resolve_eq_ok hop h
    obtain ⟨k', hk', rfl⟩ := resolve_eq_ok hop h'
    obtain ⟨rfl, hrx, hry⟩ := commonKind_stands hx hy hbound hk hk'
    exact ⟨rfl, rfl, hrx, .inl ⟨_, rfl, rfl, hry⟩⟩

/-! ## Kinds of double precision -/

theorem wide_widenOpen {k : Kind} (hk : k.Wide) (hy : y.isBound = false) :
    (op.widenOpen k y).Wide := by
  unfold widenOpen
  split
  · exact OperandKind.wide_default hy
  · exact hk

theorem wide_commonKind {k : Kind} (hx : x.default.Wide) (hy : y.default.Wide)
    (h : op.commonKind x y = .ok k) : k.Wide := by
  cases hbx : x.isBound with
  | true =>
    cases x with
    | bound l =>
      cases hby : y.isBound with
      | true =>
        cases y with
        | bound m =>
          obtain ⟨-, rfl⟩ | ⟨-, -, -, -, rfl⟩ := commonKind_bound h
          · exact hx
          · split
            · exact hx
            · exact hy
        | _ => cases hby
      | false =>
        cases (commonKind_bound_open hby).symm.trans h
        exact wide_widenOpen hx hby
    | _ => cases hbx
  | false =>
    cases y with
    | bound m =>
      cases (commonKind_open_bound hbx).symm.trans h
      exact wide_widenOpen hy hbx
    | _ =>
      cases x with
      | bound l => cases hbx
      | _ => cases h

theorem wide_shiftKind (hx : x.default.Wide) : (shiftKind x).Wide := by
  cases x with
  | openFloat | openComplex => exact True.intro
  | _ => exact hx

theorem wide_resolve (hx : x.default.Wide) (hy : y.default.Wide) (h : op.resolve x y = .ok r) :
    r.first.Wide ∧ ∀ k, r.second = some k → k.Wide := by
  cases hop : op.isShift with
  | true =>
    obtain ⟨-, second, hsecond, rfl⟩ := resolve_eq_ok_of_shift hop h
    refine ⟨wide_shiftKind hx, fun k hk => ?_⟩
    cases hk
    unfold countKind at hsecond
    split at hsecond <;> cases hsecond
    exact True.intro
  | false =>
    obtain ⟨k, hk, rfl⟩ := resolve_eq_ok hop h
    refine ⟨wide_commonKind hx hy hk, fun l hl => ?_⟩
    cases hl
    exact wide_commonKind hx hy hk

/-! ## Two open operands -/

/-- The default kind of the operand of higher rank. -/
def openKind (x y : OperandKind) : Kind := if x.rank < y.rank then y.default else x.default

theorem commonKind_default {k : Kind}
    (h : op.commonKind (.bound x.default) (.bound y.default) = .ok k) :
    k = openKind x y := by
  have hrx := x.rank_default
  have hry := y.rank_default
  unfold openKind
  obtain ⟨heq, rfl⟩ | ⟨-, -, -, hne, rfl⟩ := commonKind_bound h
  · rw [if_neg (by rw [← hrx, ← hry, heq]; exact Nat.lt_irrefl _)]
  · rw [hrx, hry] at hne ⊢
    rcases Nat.lt_or_gt_of_ne hne with hlt | hlt
    · rw [if_neg (by omega), if_pos hlt]
    · rw [if_pos hlt, if_neg (by omega)]

theorem widenOpen_default (hwide : op.widens = true ∨ x = .openInt ∧ y = .openInt)
    (hx : x.isBound = false) :
    op.widenOpen x.default y = openKind x y := by
  have hrank := x.rank_default
  have hpos := OperandKind.rank_default_pos hx
  unfold widenOpen openKind
  rw [hrank] at *
  by_cases hlt : x.rank < y.rank
  · rw [if_pos hlt]
    rcases hwide with hwide | ⟨rfl, rfl⟩
    · rw [if_pos ⟨hwide, hpos, hlt⟩]
    · exact absurd hlt (Nat.lt_irrefl _)
  · rw [if_neg hlt, if_neg fun h => hlt h.2.2]

theorem openKind_comm (hx : x.isBound = false) (hy : y.isBound = false) :
    openKind x y = openKind y x := by
  cases x with
  | bound k => cases hx
  | _ =>
    cases y with
    | bound l => cases hy
    | _ => rfl

/-- The kinds chosen for two open operands, of which some may have been computed. -/
theorem settle_open (hop : op.isShift = false) (hx : x.isBound = false) (hy : y.isBound = false)
    (hsx : x.Stands x') (hsy : y.Stands y')
    (hwide : op.widens = true ∨ x = .openInt ∧ y = .openInt) (h : op.settle x' y' = .ok r) :
    r.operand = openKind x y ∧ r.first = openKind x y ∧ r.second = some (openKind x y) := by
  have hresolve {x' y' : OperandKind} (h : op.resolve x' y' = .ok r)
      (hk : ∀ k, op.commonKind x' y' = .ok k → k = openKind x y) :
      r.operand = openKind x y ∧ r.first = openKind x y ∧ r.second = some (openKind x y) := by
    obtain ⟨k, hcommon, rfl⟩ := resolve_eq_ok hop h
    cases hk k hcommon
    exact ⟨rfl, rfl, rfl⟩
  have hdefault : ∀ k, op.commonKind (.bound x.default) (.bound y.default) = .ok k →
      k = openKind x y := fun _ => commonKind_default
  unfold settle at h
  rcases hsx with rfl | rfl <;> rcases hsy with rfl | rfl
  · rw [hx, hy, hop, if_neg (by simp)] at h
    exact hresolve h hdefault
  · rw [if_pos (by simp [OperandKind.isBound])] at h
    refine hresolve h fun k hk => ?_
    cases (commonKind_open_bound hx).symm.trans hk
    rw [widenOpen_default (hwide.imp id And.symm) hy, openKind_comm hx hy]
  · rw [if_pos (by simp [OperandKind.isBound])] at h
    refine hresolve h fun k hk => ?_
    cases (commonKind_bound_open hy).symm.trans hk
    exact widenOpen_default hwide hx
  · rw [if_pos (by simp [OperandKind.isBound])] at h
    exact hresolve h hdefault

end Operator

end StackScript
