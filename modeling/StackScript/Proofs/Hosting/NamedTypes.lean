import StackScript.Proofs.Hosting.Registering

/-!
# Named types of a registry

A package keeps every named type under the type's own name, so two types of one package that pass
for one another are equal (`Registry.findType?_inj_of_package`). The path of a type is not compared
with the package that it is registered in: two packages may hold types that pass for one another
and have nothing in common (`Registry.exists_same_and_differ`). This is the only way to have such
types. Where a type is registered in the package that its path names, types found anywhere in the
registry are equal as soon as they pass for one another (`Registry.findType?_inj`).
-/

namespace StackScript

/-- The types that the request asks for, with the package that they are for. -/
def Request.types? : Request → Option (String × List Ty)
  | .types path batch => some (path, batch)
  | .package _ | .vars .. | .funcs .. | .funcvs .. | .host .. => none

/-- The paths of the types that the request asks for are related to the package. -/
def Request.Places (R : String → String → Prop) (q : Request) : Prop :=
  ∀ path batch, q.types? = some (path, batch) →
    ∀ p name t, Ty.named p name t ∈ batch → R path p

namespace Registry

variable {R : String → String → Prop} {r r' : Registry} {path : String}

/-- Packages keep named types, each under its own name, and their paths are related to the
package. -/
def NamesTypes (R : String → String → Prop) (r : Registry) : Prop :=
  ∀ path pkg, r.package? path = some pkg → ∀ name t, (name, t) ∈ pkg.types →
    ∃ p u, t = .named p name u ∧ R path p

/-- No package gets another type. -/
def KeepsTypes (r r' : Registry) : Prop :=
  ∀ path pkg', r'.package? path = some pkg' →
    ∃ pkg, r.package? path = some pkg ∧ pkg'.types = pkg.types

theorem KeepsTypes.names (h : r.KeepsTypes r') (hr : r.NamesTypes R) : r'.NamesTypes R := by
  intro path pkg' hpkg' name t ht
  obtain ⟨pkg, hpkg, htypes⟩ := h path pkg' hpkg'
  exact hr path pkg hpkg name t (htypes ▸ ht)

theorem keepsTypes_add (r : Registry) (e : HostEntry) : r.KeepsTypes (r.add e) := by
  intro path pkg' hpkg'
  rw [package?_add] at hpkg'
  obtain ⟨pkg, hpkg, rfl⟩ := Option.map_eq_some_iff.1 hpkg'
  exact ⟨pkg, hpkg, by split <;> rfl⟩

theorem keepsTypes_foldl {α : Type} (entry : α → HostEntry) (batch : List α) (r : Registry) :
    r.KeepsTypes (batch.foldl (fun r a => r.add (entry a)) r) := by
  induction batch generalizing r with
  | nil => exact fun path pkg hpkg => ⟨pkg, hpkg, rfl⟩
  | cons a batch ih =>
    intro path pkg'' hpkg''
    obtain ⟨pkg', hpkg', htypes'⟩ := ih (r.add (entry a)) path pkg'' hpkg''
    obtain ⟨pkg, hpkg, htypes⟩ := keepsTypes_add r (entry a) path pkg' hpkg'
    exact ⟨pkg, hpkg, htypes'.trans htypes⟩

/-- A batch that passes the check holds named types only, which get their own names. -/
theorem exists_of_namedTypes {pkg : Package} {done named : List (String × Ty)} {batch : List Ty}
    (h : namedTypes path pkg done batch = .ok named) {name : String} {t : Ty}
    (ht : (name, t) ∈ named) : (name, t) ∈ done ∨ t ∈ batch ∧ ∃ p u, t = .named p name u := by
  induction batch generalizing done with
  | nil =>
    cases h
    exact .inl ht
  | cons t' batch ih =>
    unfold namedTypes at h
    split at h
    · rename_i p name' u
      split at h
      · cases h
      · obtain hdone | ⟨hmem, hnamed⟩ := ih h
        · obtain hold | hnew := List.mem_append.1 hdone
          · exact .inl hold
          · cases List.mem_singleton.1 hnew
            exact .inr ⟨List.mem_cons_self, p, u, rfl⟩
        · exact .inr ⟨List.mem_cons_of_mem _ hmem, hnamed⟩
    · cases h

theorem NamesTypes.registerTypes {batch : List Ty} (h : r.NamesTypes R)
    (hbatch : ∀ p name t, Ty.named p name t ∈ batch → R path p)
    (hnew : r.registerTypes path batch = .ok r') : r'.NamesTypes R := by
  unfold Registry.registerTypes at hnew
  split at hnew
  · cases hnew
  · rename_i pkg₀ hpkg₀
    obtain ⟨named, hnamed, hnew⟩ := bind_eq_ok hnew
    cases hnew
    intro path' pkg' hpkg' name t ht
    rw [package?_updatePackage] at hpkg'
    obtain ⟨pkg, hpkg, rfl⟩ := Option.map_eq_some_iff.1 hpkg'
    split at ht
    · rename_i hpath
      subst hpath
      obtain hold | hnew := List.mem_append.1 ht
      · exact h path' pkg hpkg name t hold
      · obtain hnone | ⟨hmem, p, u, rfl⟩ := exists_of_namedTypes hnamed hnew
        · cases hnone
        · exact ⟨p, u, rfl, hbatch p name u hmem⟩
    · exact h path' pkg hpkg name t ht

/-- Only a request for types adds types. -/
theorem NamesTypes.apply (h : r.NamesTypes R) {q : Request} (hplaces : q.Places R)
    (hq : q.apply r = .ok r') : r'.NamesTypes R := by
  cases q with
  | package path =>
    change r.newPackage path = .ok r' at hq
    unfold newPackage at hq
    split at hq
    · cases hq
    · cases hq
      intro p pkg hpkg name t ht
      obtain hold | rfl := package?_newPackage r path hpkg
      · exact h p pkg hold name t ht
      · cases ht
  | vars path batch =>
    obtain ⟨u, -, hq⟩ := bind_eq_ok hq
    cases hq
    exact (keepsTypes_foldl (fun v => ⟨path, v.1, .var v.2.1 v.2.2⟩) batch r).names h
  | funcs path batch =>
    obtain ⟨u, -, hq⟩ := bind_eq_ok hq
    split at hq
    · cases hq
    · cases hq
      exact (keepsTypes_foldl (fun f => ⟨path, f.1, .func f.2⟩) batch r).names h
  | funcvs path batch =>
    obtain ⟨u, -, hq⟩ := bind_eq_ok hq
    split at hq
    · cases hq
    · cases hq
      exact (keepsTypes_foldl (fun f => ⟨path, f.1, .funcv f.2⟩) batch r).names h
  | types path batch => exact h.registerTypes (hplaces path batch rfl) hq
  | host sig body =>
    cases hq
    exact h

theorem NamesTypes.after (h : r.NamesTypes R) {qs : List Request} (hqs : ∀ q ∈ qs, q.Places R) :
    (r.after qs).NamesTypes R := by
  induction qs generalizing r with
  | nil => exact h
  | cons q qs ih =>
    rw [after_cons]
    refine ih ?_ fun q' hq' => hqs q' (List.mem_cons_of_mem q hq')
    rw [exec_perform]
    split
    · rename_i r' hq
      exact h.apply (hqs q List.mem_cons_self) hq
    · exact h

theorem namesTypes_bare (bodies : Array HostBody) : (bare bodies).NamesTypes R :=
  fun _ _ h => nomatch h

theorem NamesTypes.findType? (h : r.NamesTypes R) {name : String} {t : Ty}
    (ht : r.findType? path name = some t) : ∃ p u, t = .named p name u ∧ R path p := by
  obtain ⟨pkg, hpkg, hlookup⟩ := Option.bind_eq_some_iff.1 ht
  exact h path pkg hpkg name t (lookup_mem hlookup)

/-! ## Types that pass for one another -/

variable {qs : List Request} {path' name name' : String} {t t' : Ty}

/-- Whatever is registered, types that are found in one package and pass for one another are
equal. -/
theorem findType?_inj_of_package (bodies : Array HostBody) (qs : List Request)
    (ht : ((bare bodies).after qs).findType? path name = some t)
    (ht' : ((bare bodies).after qs).findType? path name' = some t') (hsame : t.same t' = true) :
    t = t' := by
  have hnames : ((bare bodies).after qs).NamesTypes fun _ _ => True :=
    (namesTypes_bare bodies).after fun _ _ _ _ _ _ _ _ _ => trivial
  obtain ⟨p, u, rfl, -⟩ := hnames.findType? ht
  obtain ⟨p', u', rfl, -⟩ := hnames.findType? ht'
  obtain ⟨-, rfl⟩ : p = p' ∧ name = name' := by simpa [Ty.same] using hsame
  exact Option.some.inj (ht.symm.trans ht')

/-- Where types are registered in the packages that their paths name, types found anywhere which
pass for one another are equal. -/
theorem findType?_inj (bodies : Array HostBody) (hqs : ∀ q ∈ qs, q.Places Eq)
    (ht : ((bare bodies).after qs).findType? path name = some t)
    (ht' : ((bare bodies).after qs).findType? path' name' = some t') (hsame : t.same t' = true) :
    t = t' := by
  have hnames : ((bare bodies).after qs).NamesTypes Eq := (namesTypes_bare bodies).after hqs
  obtain ⟨p, u, rfl, rfl⟩ := hnames.findType? ht
  obtain ⟨p', u', rfl, rfl⟩ := hnames.findType? ht'
  obtain ⟨rfl, rfl⟩ : path = path' ∧ name = name' := by simpa [Ty.same] using hsame
  exact Option.some.inj (ht.symm.trans ht')

/-- Two packages with a type `a.T` each: an `int` in one, a `string` in the other. -/
def declaringTwice : List Request :=
  [.package "a", .package "b", .types "a" [.named "a" "T" (.basic (.int .int))],
    .types "b" [.named "a" "T" (.basic .string)]]

/-- Types that pass for one another, and a value that fits only one of them. -/
theorem exists_same_and_differ : ∃ t t' : Ty,
    ((bare #[]).after declaringTwice).findType? "a" "T" = some t ∧
    ((bare #[]).after declaringTwice).findType? "b" "T" = some t' ∧
    t.assignable t' = true ∧ t.kind ≠ t'.kind ∧
    (Value.zero t).fits t = true ∧ (Value.zero t).fits t' = false :=
  ⟨.named "a" "T" (.basic (.int .int)), .named "a" "T" (.basic .string), rfl, rfl, rfl,
    by decide, by decide, by decide⟩

end Registry

end StackScript
