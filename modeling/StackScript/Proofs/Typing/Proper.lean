import StackScript.Proofs.Typing.Identity
import StackScript.Word

/-!
# Proper types

A named type is identified by its name alone, so identity is equality only where a name has one
meaning. Types are proper if their names mean what they are declared to mean (`Ty.Proper`): two
proper types that are identical are equal (`Ty.eq_of_same`), and a value of one type that may go where
another one is declared is of that other type, or anything may go there (`Ty.Into`).
-/

namespace StackScript

/-- What the names of the packages stand for. -/
abbrev TypeNames := String → String → Ty

/-- A signature of more parameters or results than that leaves no room for a call of it in an
instruction. -/
def mostTypes : Nat := 1 <<< 25

mutual

/-- Names in the type stand for what they are declared to stand for, basic types have basic kinds, and
no list of types is too long to be counted in an instruction. -/
def Ty.Proper (D : TypeNames) : Ty → Prop
  | .basic k => k.isBasic = true
  | .any => True
  | .slice t | .ptr t => t.Proper D
  | .func sig => sig.Proper D
  | .struct fs => fs.length < 1 <<< 32 ∧ ProperFields D fs
  | .named path name t => t = D path name ∧ t.Proper D
termination_by structural t => t

def Signature.Proper (D : TypeNames) : Signature → Prop
  | ⟨ps, rs, _⟩ => (ps.length < mostTypes ∧ rs.length < mostTypes) ∧
    ProperTypes D ps ∧ ProperTypes D rs
termination_by structural s => s

def ProperTypes (D : TypeNames) : List Ty → Prop
  | [] => True
  | t :: ts => t.Proper D ∧ ProperTypes D ts
termination_by structural ts => ts

def Field.Proper (D : TypeNames) : Field → Prop
  | ⟨_, t⟩ => t.Proper D
termination_by structural f => f

def ProperFields (D : TypeNames) : List Field → Prop
  | [] => True
  | f :: fs => f.Proper D ∧ ProperFields D fs
termination_by structural fs => fs

end

variable {D : TypeNames}

theorem properTypes_iff {ts : List Ty} : ProperTypes D ts ↔ ∀ t ∈ ts, t.Proper D := by
  induction ts with
  | nil => simp [ProperTypes]
  | cons t ts ih => simp [ProperTypes, ih]

theorem properFields_iff {fs : List Field} : ProperFields D fs ↔ ∀ f ∈ fs, f.Proper D := by
  induction fs with
  | nil => simp [ProperFields]
  | cons f fs ih => simp [ProperFields, ih]

theorem Signature.Proper.types {sig : Signature} (h : sig.Proper D) :
    (∀ t ∈ sig.params, t.Proper D) ∧ ∀ t ∈ sig.results, t.Proper D := by
  obtain ⟨ps, rs, v⟩ := sig
  exact ⟨properTypes_iff.1 h.2.1, properTypes_iff.1 h.2.2⟩

theorem Signature.Proper.few {sig : Signature} (h : sig.Proper D) :
    sig.params.length < mostTypes ∧ sig.results.length < mostTypes := by
  obtain ⟨ps, rs, v⟩ := sig
  exact h.1

/-! ## Identity -/

mutual

/-- Proper types that are identical are equal. -/
theorem Ty.eq_of_same : ∀ {t u : Ty}, t.Proper D → u.Proper D → t.same u = true → t = u
  | .basic k, .basic l, _, _, h => by
    simp only [Ty.same, beq_iff_eq] at h
    rw [h]
  | .any, .any, _, _, _ => rfl
  | .slice t, .slice u, ht, hu, h => by
    rw [Ty.eq_of_same (t := t) (u := u) ht hu h]
  | .ptr t, .ptr u, ht, hu, h => by
    rw [Ty.eq_of_same (t := t) (u := u) ht hu h]
  | .func s, .func r, hs, hr, h => by
    rw [Signature.eq_of_same (s := s) (r := r) hs hr h]
  | .struct fs, .struct gs, hfs, hgs, h => by
    rw [fields_eq_of_same hfs.2 hgs.2 h]
  | .named p n t, .named q m u, ht, hu, h => by
    simp only [Ty.same, Bool.and_eq_true, beq_iff_eq] at h
    obtain ⟨rfl, rfl⟩ := h
    rw [ht.1, hu.1]

theorem Signature.eq_of_same : ∀ {s r : Signature}, s.Proper D → r.Proper D → s.same r = true → s = r
  | ⟨ps, rs, v⟩, ⟨qs, ts, w⟩, hs, hr, h => by
    simp only [Signature.same, Bool.and_eq_true, beq_iff_eq] at h
    obtain ⟨⟨hparams, hresults⟩, rfl⟩ := h
    rw [types_eq_of_same hs.2.1 hr.2.1 hparams, types_eq_of_same hs.2.2 hr.2.2 hresults]

theorem types_eq_of_same : ∀ {ts us : List Ty}, ProperTypes D ts → ProperTypes D us →
    sameTypes ts us = true → ts = us
  | [], [], _, _, _ => rfl
  | t :: ts, u :: us, hts, hus, h => by
    simp only [sameTypes, Bool.and_eq_true] at h
    rw [Ty.eq_of_same hts.1 hus.1 h.1, types_eq_of_same hts.2 hus.2 h.2]

theorem Field.eq_of_same : ∀ {f g : Field}, f.Proper D → g.Proper D → f.same g = true → f = g
  | ⟨n, t⟩, ⟨m, u⟩, hf, hg, h => by
    simp only [Field.same, Bool.and_eq_true, beq_iff_eq] at h
    rw [h.1, Ty.eq_of_same (t := t) (u := u) hf hg h.2]

theorem fields_eq_of_same : ∀ {fs gs : List Field}, ProperFields D fs → ProperFields D gs →
    sameFields fs gs = true → fs = gs
  | [], [], _, _, _ => rfl
  | f :: fs, g :: gs, hfs, hgs, h => by
    simp only [sameFields, Bool.and_eq_true] at h
    rw [Field.eq_of_same hfs.1 hgs.1 h.1, fields_eq_of_same hfs.2 hgs.2 h.2]

end

namespace Ty

/-! ## Parts -/

variable {t u : Ty}

@[simp] theorem underlying_underlying : ∀ t : Ty, t.underlying.underlying = t.underlying
  | named _ _ t => underlying_underlying t
  | basic _ | any | slice _ | ptr _ | func _ | struct _ => rfl

theorem kind_underlying : ∀ t : Ty, t.underlying.kind = t.kind
  | named _ _ t => kind_underlying t
  | basic _ | any | slice _ | ptr _ | func _ | struct _ => rfl

/-- Behind its names a type is no name. -/
theorem underlying_ne_named (t : Ty) (p n : String) (u : Ty) : t.underlying ≠ .named p n u := by
  induction t using Ty.underlying.induct with
  | case1 _ _ t ih => exact ih
  | case2 t hnot =>
    intro h
    cases t with
    | named p n u => exact hnot p n u rfl
    | _ => cases h

theorem Proper.underlying (h : t.Proper D) : t.underlying.Proper D := by
  induction t using Ty.underlying.induct with
  | case1 _ _ t ih => exact ih h.2
  | case2 t hnot =>
    cases t with
    | named p n u => exact absurd rfl (hnot p n u)
    | _ => exact h

theorem Proper.elem? (h : t.Proper D) (he : t.elem? = some u) : u.Proper D := by
  have hproper := h.underlying
  unfold Ty.elem? at he
  split at he <;> cases he <;> rename_i hunder <;> rw [hunder] at hproper <;> exact hproper

theorem underlying_of_signature? {sig : Signature} (h : t.signature? = some sig) :
    t.underlying = .func sig := by
  unfold Ty.signature? at h
  split at h <;> cases h
  assumption

theorem Proper.signature? {sig : Signature} (h : t.Proper D) (hs : t.signature? = some sig) :
    sig.Proper D := by
  have hproper := h.underlying
  rw [underlying_of_signature? hs] at hproper
  exact hproper

theorem Proper.stripPtrs (h : t.Proper D) {n : Nat} (hs : t.stripPtrs = (n, u)) : u.Proper D := by
  induction t using Ty.stripPtrs.induct generalizing n u with
  | case1 e m v hv ih =>
    rw [Ty.stripPtrs, hv] at hs
    cases hs
    exact ih h hv
  | case2 t hnot =>
    cases t with
    | ptr e => exact absurd rfl (hnot e)
    | _ =>
      cases hs
      exact h

/-- What a field is in the fields of a struct. -/
theorem mem_of_field? {name : String} {i : Nat} (hf : t.field? name = some (i, u)) :
    ∃ fs f, t.underlying = .struct fs ∧ fs[i]? = some f ∧ f.ty = u := by
  unfold Ty.field? at hf
  split at hf
  · rename_i fs hfs
    obtain ⟨⟨f, j⟩, hfind, hpair⟩ := Option.map_eq_some_iff.1 hf
    cases hpair
    have hmem := List.mem_of_find?_eq_some hfind
    rw [List.mem_zipIdx_iff_getElem?] at hmem
    exact ⟨fs, f, hfs, hmem, rfl⟩
  · cases hf

theorem Proper.field (h : t.Proper D) {fs : List Field} {f : Field} {i : Nat}
    (hfs : t.underlying = .struct fs) (hf : fs[i]? = some f) : f.ty.Proper D ∧ i < 1 <<< 32 := by
  have hproper := h.underlying
  rw [hfs] at hproper
  have hfield : f.Proper D := properFields_iff.1 hproper.2 f (List.mem_of_getElem? hf)
  have hlt := (List.getElem?_eq_some_iff.1 hf).1
  obtain ⟨name, ty⟩ := f
  exact ⟨hfield, Nat.lt_trans hlt hproper.1⟩

/-! ## Where values may go -/

/-- A value of the type `t` may go where `target` is declared, and is of that type there. -/
def Into (t target : Ty) : Prop := target.underlying = .any ∨ t.underlying = target.underlying

theorem Into.refl (t : Ty) : t.Into t := .inr rfl

theorem into_of_assignable (ht : t.Proper D) (hu : u.Proper D) (h : t.assignable u = true) :
    t.Into u := by
  unfold assignable at h
  split at h
  · exact .inl rfl
  · rw [Ty.eq_of_same ht hu h]
    exact .refl u

/-- A basic kind is that of a type which is basic behind its names. -/
theorem underlying_of_isBasic (h : t.kind.isBasic = true) : t.underlying = .basic t.kind := by
  have hkind := kind_underlying t
  rw [← hkind] at h ⊢
  cases hunder : t.underlying with
  | basic k => rfl
  | named p n u => exact absurd hunder (underlying_ne_named t p n u)
  | _ =>
    rw [hunder] at h
    cases h

end Ty

end StackScript
