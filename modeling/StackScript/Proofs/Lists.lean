import Mathlib.Data.List.Forall2
import Mathlib.Data.List.Nodup

/-!
# Lists and arrays

What the proofs need of lists and arrays and the library does not state: lists whose items are related
place by place, names that are looked up, and arrays of which one item is set or which grow at the end
(`Extends`).
-/

namespace StackScript

/-! ## Items side by side -/

section

variable {α β : Type} {R S : α → β → Prop} {as : List α} {bs : List β}

theorem exists_forall₂ : ∀ {as : List α}, (∀ a ∈ as, ∃ b, R a b) → ∃ bs, List.Forall₂ R as bs
  | [], _ => ⟨[], .nil⟩
  | a :: as, h => by
    obtain ⟨b, hb⟩ := h a (by simp)
    obtain ⟨bs, hbs⟩ := exists_forall₂ fun a ha => h a (List.mem_cons_of_mem _ ha)
    exact ⟨b :: bs, .cons hb hbs⟩

theorem forall₂_imp_mem (h : List.Forall₂ R as bs) (himp : ∀ a ∈ as, ∀ b, R a b → S a b) :
    List.Forall₂ S as bs := by
  induction h with
  | nil => exact .nil
  | cons hab _ ih =>
    exact .cons (himp _ List.mem_cons_self _ hab) (ih fun a ha => himp a (List.mem_cons_of_mem _ ha))

theorem forall₂_replicate {b : β} (h : ∀ a ∈ as, R a b) :
    List.Forall₂ R as (List.replicate as.length b) := by
  induction as with
  | nil => exact .nil
  | cons a as ih =>
    exact .cons (h a List.mem_cons_self) (ih fun a' ha => h a' (List.mem_cons_of_mem a ha))

theorem exists_of_forall₂_of_mem {b : β} (h : List.Forall₂ R as bs) (hb : b ∈ bs) :
    ∃ a ∈ as, R a b := by
  induction h with
  | nil => cases hb
  | cons hr _ ih =>
    obtain rfl | hb := List.mem_cons.1 hb
    · exact ⟨_, List.mem_cons_self, hr⟩
    · obtain ⟨a, ha, hr⟩ := ih hb
      exact ⟨a, List.mem_cons_of_mem _ ha, hr⟩

theorem exists_getElem?_of_forall₂ {i : Nat} {a : α} (h : List.Forall₂ R as bs)
    (ha : as[i]? = some a) : ∃ b, bs[i]? = some b ∧ R a b := by
  obtain ⟨hi, rfl⟩ := List.getElem?_eq_some_iff.1 ha
  have hj : i < bs.length := h.length_eq ▸ hi
  exact ⟨bs[i], List.getElem?_eq_getElem hj, h.get hi hj⟩

end

/-! ## Lists of results -/

theorem mapM_eq_ok_iff {α β ε : Type} {f : α → Except ε β} {l : List α} {bs : List β} :
    l.mapM f = .ok bs ↔ List.Forall₂ (fun a b => f a = .ok b) l bs := by
  induction l generalizing bs with
  | nil =>
    rw [List.forall₂_nil_left_iff]
    exact ⟨fun h => by cases h; rfl, fun h => by subst h; rfl⟩
  | cons a l ih =>
    rw [List.mapM_cons, List.forall₂_cons_left_iff]
    constructor
    · intro h
      cases hb : f a with
      | error e =>
        rw [hb] at h
        cases h
      | ok b =>
        cases hl : l.mapM f with
        | error e =>
          rw [hb, hl] at h
          cases h
        | ok bs' =>
          rw [hb, hl] at h
          cases h
          exact ⟨b, bs', rfl, ih.1 hl, rfl⟩
    · rintro ⟨b, bs', hb, hbs, rfl⟩
      rw [hb, ih.2 hbs]
      rfl

theorem mapM_toList_eq_ok {α β ε : Type} {f : α → Except ε β} {xs : Array α} {ys : Array β} :
    xs.mapM f = .ok ys ↔ List.Forall₂ (fun a b => f a = .ok b) xs.toList ys.toList := by
  rw [← mapM_eq_ok_iff, ← Array.toList_mapM]
  cases xs.mapM f with
  | error e => exact ⟨fun h => (nomatch h), fun h => (nomatch h)⟩
  | ok zs =>
    show _ ↔ Except.ok zs.toList = Except.ok ys.toList
    simp

theorem forM_eq_ok {α ε : Type} {l : List α} {k : α → Except ε Unit} (h : ∀ a ∈ l, k a = .ok ()) :
    l.forM k = .ok () := by
  induction l with
  | nil => rfl
  | cons a l ih =>
    show (k a >>= fun _ => l.forM k) = _
    rw [h a (by simp)]
    exact ih fun b hb => h b (by simp [hb])

/-! ## Lists of names -/

section

variable {α β : Type} [BEq α] [LawfulBEq α] {l : List (α × β)} {a : α} {b : β}

theorem lookup_mem (h : l.lookup a = some b) : (a, b) ∈ l := by
  obtain ⟨l₁, l₂, rfl, -⟩ := List.lookup_eq_some_iff.1 h
  simp

/-- A name that stands once is found. -/
theorem lookup_of_mem (h : (l.map (·.1)).Nodup) (hmem : (a, b) ∈ l) : l.lookup a = some b := by
  induction l with
  | nil => cases hmem
  | cons q l ih =>
    obtain ⟨a', b'⟩ := q
    rw [List.map_cons, List.nodup_cons] at h
    obtain heq | hmem := List.mem_cons.1 hmem
    · cases heq
      rw [List.lookup_cons_self]
    · have hne : a ≠ a' := fun heq => h.1 (List.mem_map.2 ⟨_, hmem, heq⟩)
      rw [List.lookup_cons, beq_eq_false_iff_ne.2 hne]
      exact ih h.2 hmem

theorem lookup_eq_none_iff : l.lookup a = none ↔ a ∉ l.map (·.1) := by
  rw [List.lookup_eq_none_iff]
  simp only [List.mem_map, not_exists, not_and, bne_iff_ne]
  exact ⟨fun h p hp hpa => h p hp hpa.symm, fun h p hp hap => h p hp hap.symm⟩

theorem lookup_map_snd (f : α → β → β) (a : α) (l : List (α × β)) :
    (l.map fun (k, b) => (k, f k b)).lookup a = (l.lookup a).map (f a) := by
  induction l with
  | nil => rfl
  | cons p l ih =>
    obtain ⟨k, b⟩ := p
    rw [List.map_cons, List.lookup_cons, List.lookup_cons]
    cases h : a == k with
    | true =>
      cases eq_of_beq h
      rfl
    | false => exact ih

end

variable {α : Type} {xs ys zs : Array α}

/-! ## Parts of an array -/

theorem mem_of_mem_extract {i j : Nat} {a : α} (h : a ∈ xs.extract i j) : a ∈ xs := by
  obtain ⟨k, hk, rfl⟩ := Array.mem_extract_iff_getElem.1 h
  exact Array.getElem_mem _

theorem mem_of_mem_pop {a : α} (h : a ∈ xs.pop) : a ∈ xs := by
  rw [← Array.mem_toList_iff, Array.toList_pop] at h
  exact Array.mem_toList_iff.1 ((List.dropLast_sublist _).subset h)

theorem push_append_toArray (xs : Array α) (x : α) (l : List α) :
    xs.push x ++ l.toArray = xs ++ (x :: l).toArray := by
  simp

/-! ## Arrays that grow at the end -/

/-- The second array has the items of the first at their places. -/
def Extends (xs ys : Array α) : Prop := ∀ (i : Nat) (x : α), xs[i]? = some x → ys[i]? = some x

namespace Extends

theorem refl (xs : Array α) : Extends xs xs := fun _ _ h => h

theorem trans (h : Extends xs ys) (h' : Extends ys zs) : Extends xs zs :=
  fun i x hx => h' i x (h i x hx)

theorem lt_of_getElem? {i : Nat} {x : α} (h : xs[i]? = some x) : i < xs.size :=
  (Array.getElem?_eq_some_iff.1 h).1

theorem push (xs : Array α) (x : α) : Extends xs (xs.push x) := by
  intro i y h
  rw [Array.getElem?_push_lt (lt_of_getElem? h), ← h]
  exact (Array.getElem?_eq_getElem (lt_of_getElem? h)).symm

theorem append (xs ys : Array α) : Extends xs (xs ++ ys) := by
  intro i x hx
  rw [← hx]
  exact Array.getElem?_append_left (lt_of_getElem? hx)

theorem size_le (h : Extends xs ys) : xs.size ≤ ys.size := by
  by_cases hs : xs.size = 0
  · omega
  · have := lt_of_getElem? (h _ _ (Array.getElem?_eq_getElem (Nat.sub_one_lt hs)))
    omega

end Extends

/-! ## Arrays of which one item is set -/

theorem setIfInBounds_push (xs : Array α) (x y : α) :
    (xs.push x).setIfInBounds xs.size y = xs.push y := by
  apply Array.ext_getElem?
  intro i
  grind

theorem setIfInBounds_same {i : Nat} {x : α} (h : xs[i]? = some x) : xs.setIfInBounds i x = xs := by
  apply Array.ext_getElem?
  intro j
  grind

theorem getElem?_setIfInBounds_of {i j : Nat} {x y : α} (h : (xs.setIfInBounds i x)[j]? = some y) :
    i = j ∧ y = x ∨ i ≠ j ∧ xs[j]? = some y := by
  rw [Array.getElem?_setIfInBounds] at h
  split at h
  · rename_i heq
    split at h
    · cases h
      exact .inl ⟨heq, rfl⟩
    · cases h
  · exact .inr ⟨‹_›, h⟩

/-- Where one item is set, each item is related to what stands in its place. -/
theorem forall_setIfInBounds {R : α → α → Prop} (refl : ∀ x, R x x) {i : Nat} {x y : α}
    (hx : xs[i]? = some x) (hxy : R x y) (j : Nat) (z : α) (hz : xs[j]? = some z) :
    ∃ w, (xs.setIfInBounds i y)[j]? = some w ∧ R z w := by
  by_cases hij : i = j
  · subst hij
    cases hx.symm.trans hz
    exact ⟨y, Array.getElem?_setIfInBounds_self_of_lt (Extends.lt_of_getElem? hx), hxy⟩
  · exact ⟨z, by rwa [Array.getElem?_setIfInBounds_ne hij], refl z⟩

end StackScript
