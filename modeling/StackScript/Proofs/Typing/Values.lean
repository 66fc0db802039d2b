import StackScript.Proofs.Running.Lineage
import StackScript.Proofs.Running.Operators
import StackScript.Proofs.Typing.Proper

/-!
# Typed values

A value has a type if it may stand where the type is declared and all that it leads to is as it says:
the items of a slice, the fields of a struct, the place that a pointer names, and the function that a
function value runs (`Value.Has`). What a value has it keeps while the store grows (`Value.Has.mono`).
It fits the type then (`Value.Has.fits`), and the zero value of a proper type has it
(`Value.has_zero`).
-/

namespace StackScript

/-- A finished program, with what is known of the host functions that it runs with. -/
structure Setting where
  out : Output
  host : Nat → Option Signature
  /-- The ways in which host functions stop by themselves. -/
  stops : Stop Cause → Prop
  /-- Whether the source may do what the machine may refuse: take addresses and follow pointers by name,
  and call variadic functions whose arguments cannot be packed as they are declared. -/
  lax : Prop
  /-- The store that a run starts from, and the types of its cells. -/
  floor : Store
  cells : Array Ty

namespace Setting

/-- What may be in a place of a store whose cells are of given types. -/
def typeAt? (g : Setting) (cells : Array Ty) (s : Store) : Place → Option Ty
  | .cell i => cells[i]?
  | .slot f i => (s.frames[f]?.bind fun frame =>
      (g.out.program.frameVars frame.func)[i]?.bind (g.out.program.vars[·]?)).map (·.ty)

end Setting

/-- The closure runs a function that has words and its signature, in a frame of the functions around
it. -/
structure Closure.Sound (g : Setting) (s : Store) (c : Closure) : Prop where
  nested : s.Lineage c.parent (g.out.nest c.func).tail
  sig : g.out.program.sig? c.func = some c.sig
  ended : ∃ f : FuncInfo, g.out.program.funcs[c.func]? = some f ∧ f.stop.isSome

/-- The function value shows the signature of what it runs. -/
def FuncValue.Sound (g : Setting) (s : Store) (f : FuncValue) : Prop :=
  match f.callee with
  | .host i => g.host i = some f.sig
  | .script c => c.Sound g s ∧ c.sig = f.sig

/-! ## Growth -/

section

variable {g : Setting} {cells cells' : Array Ty} {s s' : Store} {t : Ty}

theorem Setting.typeAt?_mono {p : Place} (hcells : Extends cells cells') (hs : s.Grows s')
    (h : g.typeAt? cells s p = some t) : g.typeAt? cells' s' p = some t := by
  cases p with
  | cell i => exact hcells i t h
  | slot f i =>
    obtain ⟨d, hd, rfl⟩ := Option.map_eq_some_iff.1 h
    obtain ⟨frame, hframe, hd⟩ := Option.bind_eq_some_iff.1 hd
    obtain ⟨frame', hframe', hfunc, -⟩ := hs.frames f frame hframe
    rw [Setting.typeAt?, hframe', Option.bind_some, hfunc, hd]
    rfl

theorem Closure.Sound.mono {c : Closure} (h : c.Sound g s) (hs : s.Grows s') : c.Sound g s' :=
  ⟨h.nested.mono hs, h.sig, h.ended⟩

theorem FuncValue.Sound.mono {f : FuncValue} (h : f.Sound g s) (hs : s.Grows s') : f.Sound g s' := by
  obtain ⟨sig, i | c⟩ := f
  · exact h
  · exact ⟨Closure.Sound.mono h.1 hs, h.2⟩

end

namespace Value

/-- The signature of a function. -/
def signature? : Value → Option Signature
  | closure c => some c.sig
  | func f => some f.sig
  | _ => none

/-- The value by itself, whatever it leads to, is one of the type. -/
def Matches (v : Value) (t : Ty) : Prop :=
  match t.underlying with
  | .any => True
  | .basic k => v.kind = k
  | .func sig => v = nil ∨ v.signature? = some sig
  | .slice elem => v = nil ∨ ∃ id vs, v = slice id elem vs
  | .ptr elem => v = nil ∨ ∃ id p, v = ptr id elem p
  | .struct fs => ∃ id ty vs, v = struct id ty vs ∧ ty.underlying = .struct fs
  | .named .. => False

mutual

/-- All that the value leads to is as it says. -/
def Sound (g : Setting) (cells : Array Ty) (s : Store) : Value → Prop
  | scalar _ => True
  | slice _ elem vs => AllHave g cells s elem vs
  | struct _ ty vs =>
    match ty.underlying with
    | .struct fs => FieldsHave g cells s fs vs
    | _ => False
  | ptr _ elem p => g.typeAt? cells s p = some elem
  | closure c => c.Sound g s
  | func f => f.Sound g s
termination_by structural v => v

/-- The items of a slice. -/
def AllHave (g : Setting) (cells : Array Ty) (s : Store) (elem : Ty) : List Value → Prop
  | [] => True
  | v :: vs => (v.Sound g cells s ∧ v.Matches elem) ∧ AllHave g cells s elem vs
termination_by structural vs => vs

/-- The fields of a struct. -/
def FieldsHave (g : Setting) (cells : Array Ty) (s : Store) : List Field → List Value → Prop
  | fs, [] => fs = []
  | [], _ :: _ => False
  | f :: fs, v :: vs => (v.Sound g cells s ∧ v.Matches f.ty) ∧ FieldsHave g cells s fs vs
termination_by structural _ vs => vs

end

/-- The value is one of the type, through and through. -/
def Has (g : Setting) (cells : Array Ty) (s : Store) (v : Value) (t : Ty) : Prop :=
  v.Sound g cells s ∧ v.Matches t

variable {g : Setting} {cells cells' : Array Ty} {s s' : Store} {v : Value} {t u : Ty}

theorem allHave_iff {vs : List Value} :
    AllHave g cells s t vs ↔ ∀ v ∈ vs, v.Has g cells s t := by
  induction vs with
  | nil => simp [AllHave]
  | cons v vs ih => simp [AllHave, ih, Has]

theorem fieldsHave_iff {fs : List Field} {vs : List Value} :
    FieldsHave g cells s fs vs ↔ List.Forall₂ (fun f v => v.Has g cells s f.ty) fs vs := by
  induction vs generalizing fs with
  | nil => simp [FieldsHave]
  | cons v vs ih =>
    cases fs with
    | nil => simp [FieldsHave]
    | cons f fs => simp [FieldsHave, ih, Has]

/-! ## Shapes -/

theorem matches_of_underlying (h : t.underlying = u.underlying) (hv : v.Matches t) : v.Matches u := by
  unfold Matches at hv ⊢
  rw [← h]
  exact hv

theorem Has.into (h : v.Has g cells s t) (hu : t.Into u) : v.Has g cells s u := by
  obtain hany | hsame := hu
  · refine ⟨h.1, ?_⟩
    unfold Matches
    rw [hany]
    trivial
  · exact ⟨h.1, matches_of_underlying hsame h.2⟩

/-- A value of a type with a basic kind is of this kind. -/
theorem Has.kind (h : v.Has g cells s t) (hk : t.kind.isBasic = true) : v.kind = t.kind := by
  have hmatches := h.2
  unfold Matches at hmatches
  rw [Ty.underlying_of_isBasic hk] at hmatches
  exact hmatches

/-- A value of a basic kind is a scalar. -/
theorem isScalar_of_isBasic (h : v.kind.isBasic = true) : v.IsScalar := by
  cases v with
  | scalar x => exact ⟨x, rfl⟩
  | _ => cases h

theorem has_basic {k : Kind} (hk : k.isBasic = true) (h : v.kind = k) : v.Has g cells s (.basic k) := by
  obtain ⟨x, rfl⟩ := isScalar_of_isBasic (v := v) (h ▸ hk)
  exact ⟨trivial, h⟩

theorem Has.ptr (h : v.Has g cells s t) {elem : Ty} (ht : t.underlying = .ptr elem) :
    v = nil ∨ ∃ id p, v = .ptr id elem p ∧ g.typeAt? cells s p = some elem := by
  obtain ⟨hsound, hmatches⟩ := h
  unfold Matches at hmatches
  rw [ht] at hmatches
  obtain rfl | ⟨id, p, rfl⟩ := hmatches
  · exact .inl rfl
  · exact .inr ⟨id, p, rfl, hsound⟩

theorem Has.slice (h : v.Has g cells s t) {elem : Ty} (ht : t.underlying = .slice elem) :
    v = nil ∨ ∃ id vs, v = .slice id elem vs ∧ ∀ w ∈ vs, w.Has g cells s elem := by
  obtain ⟨hsound, hmatches⟩ := h
  unfold Matches at hmatches
  rw [ht] at hmatches
  obtain rfl | ⟨id, vs, rfl⟩ := hmatches
  · exact .inl rfl
  · exact .inr ⟨id, vs, rfl, allHave_iff.1 hsound⟩

theorem has_slice {id : Nat} {vs : List Value} {elem : Ty} (ht : t.underlying = .slice elem)
    (h : ∀ w ∈ vs, w.Has g cells s elem) : (Value.slice id elem vs).Has g cells s t := by
  refine ⟨allHave_iff.2 h, ?_⟩
  unfold Matches
  rw [ht]
  exact .inr ⟨id, vs, rfl⟩

theorem Has.struct (h : v.Has g cells s t) {fs : List Field} (ht : t.underlying = .struct fs) :
    ∃ id ty vs, v = .struct id ty vs ∧ List.Forall₂ (fun f v => v.Has g cells s f.ty) fs vs := by
  obtain ⟨hsound, hmatches⟩ := h
  unfold Matches at hmatches
  rw [ht] at hmatches
  obtain ⟨id, ty, vs, rfl, hty⟩ := hmatches
  rw [Sound, hty] at hsound
  exact ⟨id, ty, vs, rfl, fieldsHave_iff.1 hsound⟩

/-- A function that shows a signature, as the machine calls it. -/
theorem Has.func (h : v.Has g cells s t) {sig : Signature} (ht : t.underlying = .func sig) :
    v = nil ∨ (∃ c, v = .closure c ∧ c.Sound g s ∧ c.sig = sig) ∨
      ∃ f, v = .func f ∧ f.Sound g s ∧ f.sig = sig := by
  obtain ⟨hsound, hmatches⟩ := h
  unfold Matches at hmatches
  rw [ht] at hmatches
  obtain rfl | hsig := hmatches
  · exact .inl rfl
  · cases v with
    | closure c => exact .inr (.inl ⟨c, rfl, hsound, Option.some.inj hsig⟩)
    | func f => exact .inr (.inr ⟨f, rfl, hsound, Option.some.inj hsig⟩)
    | _ => cases hsig

theorem has_func {f : FuncValue} (h : f.Sound g s) : (Value.func f).Has g cells s (.func f.sig) :=
  ⟨h, .inr rfl⟩

/-! ## Growth -/

mutual

theorem Sound.mono : ∀ {v : Value}, v.Sound g cells s → Extends cells cells' → s.Grows s' →
    v.Sound g cells' s'
  | scalar _, _, _, _ => trivial
  | .slice _ _ _, h, hcells, hs => AllHave.mono h hcells hs
  | .struct _ ty vs, h, hcells, hs => by
    rw [Sound] at h ⊢
    split at h
    · exact FieldsHave.mono h hcells hs
    · exact h.elim
  | .ptr _ _ _, h, hcells, hs => Setting.typeAt?_mono hcells hs h
  | closure _, h, _, hs => Closure.Sound.mono h hs
  | .func _, h, _, hs => FuncValue.Sound.mono h hs
termination_by structural v => v

theorem AllHave.mono {elem : Ty} : ∀ {vs : List Value}, AllHave g cells s elem vs →
    Extends cells cells' → s.Grows s' → AllHave g cells' s' elem vs
  | [], _, _, _ => trivial
  | _ :: _, h, hcells, hs => ⟨⟨h.1.1.mono hcells hs, h.1.2⟩, AllHave.mono h.2 hcells hs⟩
termination_by structural vs => vs

theorem FieldsHave.mono : ∀ {fs : List Field} {vs : List Value}, FieldsHave g cells s fs vs →
    Extends cells cells' → s.Grows s' → FieldsHave g cells' s' fs vs
  | _, [], h, _, _ => h
  | _ :: _, _ :: _, h, hcells, hs => ⟨⟨h.1.1.mono hcells hs, h.1.2⟩, FieldsHave.mono h.2 hcells hs⟩
termination_by structural _ vs => vs

end

theorem Has.mono (h : v.Has g cells s t) (hcells : Extends cells cells') (hs : s.Grows s') :
    v.Has g cells' s' t := ⟨h.1.mono hcells hs, h.2⟩

/-! ## Fitting -/

theorem Has.fits (h : v.Has g cells s t) : v.fits t = true := by
  obtain ⟨-, hmatches⟩ := h
  unfold Matches at hmatches
  unfold Value.fits
  revert hmatches
  cases t.underlying <;> intro hmatches
  case basic => exact beq_iff_eq.2 hmatches
  case any => rfl
  case slice =>
    obtain rfl | ⟨id, vs, rfl⟩ := hmatches
    · rfl
    · exact Ty.same_refl _
  case ptr =>
    obtain rfl | ⟨id, p, rfl⟩ := hmatches
    · rfl
    · exact Ty.same_refl _
  case func =>
    obtain rfl | hsig := hmatches
    · rfl
    · cases v with
      | closure | func => rfl
      | _ => cases hsig
  case struct =>
    obtain ⟨id, ty, vs, rfl, hty⟩ := hmatches
    dsimp only
    rw [hty, Ty.same_refl, Bool.or_true]
  case named => exact hmatches.elim

theorem matches_nil (h : nil.fits t = true) : nil.Matches t := by
  unfold Value.fits at h
  unfold Matches
  revert h
  cases t.underlying <;> intro h
  case basic => exact beq_iff_eq.1 h
  case any => trivial
  case slice | ptr | func => exact .inl rfl
  case struct | named => cases h

theorem matches_slice {id : Nat} {elem : Ty} {vs : List Value} (h : (slice id elem vs).fits t = true)
    (hsame : ∀ e, t.underlying = .slice e → elem.same e = true → elem = e) :
    (slice id elem vs).Matches t := by
  unfold Value.fits at h
  unfold Matches
  revert hsame h
  cases t.underlying <;> intro h hsame
  case basic => exact beq_iff_eq.1 h
  case any => trivial
  case slice e => exact .inr ⟨id, vs, by rw [hsame e rfl h]⟩
  case ptr | func | struct | named => cases h

theorem matches_ptr {id : Nat} {elem : Ty} {p : Place} (h : (ptr id elem p).fits t = true)
    (hsame : ∀ e, t.underlying = .ptr e → elem.same e = true → elem = e) : (ptr id elem p).Matches t := by
  unfold Value.fits at h
  unfold Matches
  revert hsame h
  cases t.underlying <;> intro h hsame
  case basic => exact beq_iff_eq.1 h
  case any => trivial
  case ptr e => exact .inr ⟨id, p, by rw [hsame e rfl h]⟩
  case slice | func | struct | named => cases h

/-- Where the machine takes a slice or a pointer for one of a type, it is one. -/
theorem Has.of_fits {D : TypeNames} {elem : Ty} (h : v.Has g cells s t) (ht : t.Proper D)
    (helem : t.elem? = some elem) (hu : u.Proper D) (hfits : v.fits u = true) : v.Has g cells s u := by
  refine ⟨h.1, ?_⟩
  have helemProper := ht.elem? helem
  unfold Ty.elem? at helem
  split at helem <;> rename_i hunder <;> cases helem
  · obtain rfl | ⟨id, vs, rfl, -⟩ := h.slice hunder
    · exact matches_nil hfits
    · exact matches_slice hfits fun e he => Ty.eq_of_same helemProper (hu.elem? (by rw [Ty.elem?, he]))
  · obtain rfl | ⟨id, p, rfl, -⟩ := h.ptr hunder
    · exact matches_nil hfits
    · exact matches_ptr hfits fun e he => Ty.eq_of_same helemProper (hu.elem? (by rw [Ty.elem?, he]))

/-- A slice of what the trailing arguments of a parameter are packed into. -/
theorem has_slice_of_fits {id : Nat} {vs : List Value} {elem : Ty} (ht : t.elem?.getD .any = elem)
    (h : ∀ w ∈ vs, w.Has g cells s elem) (hfits : (slice id elem vs).fits t = true) :
    (slice id elem vs).Has g cells s t := by
  refine ⟨allHave_iff.2 h, matches_slice hfits fun e he _ => ?_⟩
  rw [← ht, Ty.elem?, he, Option.getD_some]

/-! ## Zero values -/

theorem kind_zero {k : Kind} (h : k.isBasic = true) : (Scalar.zero k).kind = k := by
  cases k <;> first | rfl | cases h

mutual

theorem has_zeroAs {D : TypeNames} (whole : Ty) : ∀ t : Ty, t.Proper D →
    whole.underlying = t.underlying → (zeroAs whole t).Has g cells s whole
  | .basic k, hproper, hwhole => by
    refine ⟨trivial, ?_⟩
    unfold Matches
    rw [hwhole]
    exact kind_zero hproper
  | .any, _, hwhole => by
    refine ⟨trivial, ?_⟩
    unfold Matches
    rw [hwhole]
    trivial
  | .slice _, _, hwhole | .ptr _, _, hwhole | .func _, _, hwhole => by
    refine ⟨trivial, ?_⟩
    unfold Matches
    rw [hwhole]
    exact .inl rfl
  | .struct fs, hproper, hwhole => by
    constructor
    · rw [zeroAs, Sound, hwhole]
      exact has_zeroFields fs hproper.2
    · unfold Matches
      rw [hwhole]
      exact ⟨_, _, _, rfl, hwhole⟩
  | .named _ _ t, hproper, hwhole => has_zeroAs whole t hproper.2 hwhole
termination_by structural t => t

theorem has_zeroField {D : TypeNames} : ∀ f : Field, f.Proper D → (zeroField f).Has g cells s f.ty
  | ⟨_, t⟩, hproper => has_zeroAs t t hproper rfl
termination_by structural f => f

theorem has_zeroFields {D : TypeNames} : ∀ fs : List Field, ProperFields D fs →
    FieldsHave g cells s fs (zeroFields fs)
  | [], _ => rfl
  | f :: fs, hproper => ⟨has_zeroField f hproper.1, has_zeroFields fs hproper.2⟩
termination_by structural fs => fs

end

/-- The zero value of a proper type. -/
theorem has_zero {D : TypeNames} (h : t.Proper D) : (zero t).Has g cells s t := has_zeroAs t t h rfl

end Value

end StackScript
