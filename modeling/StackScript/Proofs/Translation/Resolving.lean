import Mathlib.Data.List.Nodup
import StackScript.Proofs.Translation.Judgment

/-!
# Resolving an assembly

The tables list the functions that have their words, each under its own variadicity, and every word
that refers to a function is pointed to the place of that function once. So an assembly without open
functions and reserved slots resolves, unless a function it refers to was never defined.
-/

namespace StackScript

namespace Assembly

/-! ## Tables -/

/-- The table that functions of a variadicity are in. -/
def Tables.table (t : Tables) (variadic : Bool) : Array Nat :=
  if variadic then t.variadic else t.fixed

/-- The tables list the defined ones of some functions. -/
structure Tables.Lists (t : Tables) (fs : List FuncInfo) : Prop where
  places : t.places.size = fs.length
  size : ∀ variadic, (t.table variadic).size ≤ fs.length
  entry : ∀ (variadic : Bool) (place id : Nat), (t.table variadic)[place]? = some id →
    ∃ f : FuncInfo, fs[id]? = some f ∧ f.isDefined = true ∧ f.isVariadic = variadic
  place : ∀ id place : Nat, t.places[id]? = some (some place) →
    ∃ f : FuncInfo, fs[id]? = some f ∧ (t.table f.isVariadic)[place]? = some id

namespace Tables

variable {t : Tables} {fs : List FuncInfo} {f : FuncInfo}

/-- The tables with one more entry. -/
theorem table_add (variadic : Bool) : (t.add f).table variadic =
    if f.isDefined ∧ f.isVariadic = variadic then (t.table variadic).push t.places.size
    else t.table variadic := by
  unfold add table
  cases hd : f.isDefined <;> cases hv : f.isVariadic <;> cases variadic <;> simp

theorem places_add : (t.add f).places =
    t.places.push (if f.isDefined then some (t.table f.isVariadic).size else none) := by
  unfold add table
  cases hd : f.isDefined <;> cases hv : f.isVariadic <;> simp

theorem Lists.add (h : t.Lists fs) : (t.add f).Lists (fs ++ [f]) where
  places := by rw [places_add, Array.size_push, h.places, List.length_append, List.length_singleton]
  size variadic := by
    have := h.size variadic
    rw [table_add, List.length_append, List.length_singleton]
    split
    · rw [Array.size_push]
      omega
    · omega
  entry variadic place id hid := by
    have hold (hid : (t.table variadic)[place]? = some id) :
        ∃ g : FuncInfo, (fs ++ [f])[id]? = some g ∧ g.isDefined = true ∧ g.isVariadic = variadic := by
      obtain ⟨g, hg, hrest⟩ := h.entry variadic place id hid
      exact ⟨g, by rw [List.getElem?_append_left (List.getElem?_eq_some_iff.1 hg).1, hg], hrest⟩
    rw [table_add] at hid
    split at hid
    · rename_i hf
      rw [Array.getElem?_push] at hid
      split at hid
      · cases hid
        exact ⟨f, by rw [h.places, List.getElem?_concat_length], hf⟩
      · exact hold hid
    · exact hold hid
  place id place hplace := by
    rw [places_add, Array.getElem?_push] at hplace
    split at hplace
    · rename_i hid
      subst hid
      refine ⟨f, by rw [h.places, List.getElem?_concat_length], ?_⟩
      split at hplace
      · rename_i hf
        cases hplace
        rw [table_add, if_pos ⟨hf, rfl⟩, Array.getElem?_push_size]
      · cases hplace
    · obtain ⟨g, hg, hentry⟩ := h.place id place hplace
      refine ⟨g, by rw [List.getElem?_append_left (List.getElem?_eq_some_iff.1 hg).1, hg], ?_⟩
      rw [table_add]
      split
      · exact Extends.push _ _ _ _ hentry
      · exact hentry

theorem lists_foldl (gs : List FuncInfo) (h : t.Lists fs) :
    (gs.foldl Tables.add t).Lists (fs ++ gs) := by
  induction gs generalizing t fs with
  | nil => simpa using h
  | cons g gs ih => simpa using ih h.add

end Tables

theorem lists_tables (funcs : Array FuncInfo) : (tables funcs).Lists funcs.toList := by
  have h : (⟨#[], #[], #[]⟩ : Tables).Lists [] :=
    { places := rfl
      size := fun variadic => by cases variadic <;> exact Nat.le_refl 0
      entry := fun variadic place id hid => by cases variadic <;> cases hid
      place := fun id place hplace => by cases hplace }
  rw [tables, ← Array.foldl_toList]
  exact Tables.lists_foldl funcs.toList h

/-! ## Pointing words to their functions -/

theorem overflows_of_pointTo {f : FuncInfo} {place : Nat} {w : Word} {x : Fault}
    (h : pointTo f place w = .error x) : x.Overflows := by
  unfold pointTo at h
  split at h
  · exact Word.overflows_of_withOperandBits h
  · exact Word.overflows_of_withOperandBits h
  · split at h
    · exact Word.overflows_of_withOperandBits h
    · cases h
      exact ⟨"variadic table overflow", List.mem_of_getElem? (i := 8) rfl, "", rfl⟩
  · exact Word.overflows_of_withOperandBits h

/-- Words at some offsets have been pointed to a place, and no others. -/
structure Pointed (f : FuncInfo) (place : Nat) (offsets : List Nat) (code code' : Array Word) :
    Prop where
  size : code'.size = code.size
  others : ∀ offset, offset ∉ offsets → code'[offset]? = code[offset]?
  words : ∀ offset ∈ offsets, ∀ w, code[offset]? = some w →
    ∃ w', pointTo f place w = .ok w' ∧ code'[offset]? = some w'

variable {f : FuncInfo} {place : Nat}

theorem pointAll_cons (code : Array Word) (offset : Nat) (offsets : List Nat) :
    pointAll f place code (offset :: offsets) = match code[offset]? with
      | some w => (pointTo f place w).bind fun w' =>
        pointAll f place (code.setIfInBounds offset w') offsets
      | none => .error .outOfRange := by
  rw [pointAll, List.foldlM_cons]
  cases code[offset]? with
  | none => rfl
  | some w =>
    show (pointTo f place w >>= fun w' => pure (code.setIfInBounds offset w')) >>= _ =
      (pointTo f place w).bind _
    cases pointTo f place w <;> rfl

theorem pointAll_spec (f : FuncInfo) (place : Nat) (offsets : List Nat) (code : Array Word)
    (hnodup : offsets.Nodup) (hlt : ∀ offset ∈ offsets, offset < code.size) :
    match pointAll f place code offsets with
    | .ok code' => Pointed f place offsets code code'
    | .error x => x.Overflows := by
  induction offsets generalizing code with
  | nil =>
    exact ⟨rfl, fun _ _ => rfl, fun offset hmem => nomatch hmem⟩
  | cons offset offsets ih =>
    obtain ⟨hnot, hnodup⟩ := List.nodup_cons.1 hnodup
    have hw : code[offset]? = some code[offset]! := by
      rw [Array.getElem!_eq_getD, Array.getD_eq_getD_getElem?,
        Array.getElem?_eq_getElem (hlt offset (by simp))]
      rfl
    generalize code[offset]! = w at hw
    rw [pointAll_cons]
    simp only [hw]
    cases hpoint : pointTo f place w with
    | error x => exact overflows_of_pointTo hpoint
    | ok w' =>
      have hih := ih (code.setIfInBounds offset w') hnodup fun o ho => by
        rw [Array.size_setIfInBounds]
        exact hlt o (by simp [ho])
      show match pointAll f place (code.setIfInBounds offset w') offsets with
        | .ok code' => Pointed f place (offset :: offsets) code code'
        | .error x => x.Overflows
      split
      · rename_i code' hcode
        rw [hcode] at hih
        refine ⟨hih.size.trans Array.size_setIfInBounds, fun o ho => ?_, fun o ho v hv => ?_⟩
        · rw [List.mem_cons, not_or] at ho
          rw [hih.others o ho.2, Array.getElem?_setIfInBounds_ne (Ne.symm ho.1)]
        · obtain rfl | ho := List.mem_cons.1 ho
          · cases hw.symm.trans hv
            refine ⟨w', hpoint, ?_⟩
            rw [hih.others o hnot,
              Array.getElem?_setIfInBounds_self_of_lt (hlt o (by simp))]
          · refine hih.words o ho v ?_
            rw [Array.getElem?_setIfInBounds_ne]
            · exact hv
            · rintro rfl
              exact hnot ho
      · rename_i x hx
        rw [hx] at hih
        exact hih

/-- Words that refer to functions with numbers from `id` up to `stop` have been pointed to the
places of these, and no other words. -/
structure RefsPointed (refs : List (Nat × Nat)) (places : Array (Option Nat)) (fs : List FuncInfo)
    (id : Nat) (code code' : Array Word) : Prop where
  others : ∀ offset, (∀ j, (offset, j) ∈ refs → j < id ∨ id + fs.length ≤ j) →
    code'[offset]? = code[offset]?
  words : ∀ offset j w, (offset, id + j) ∈ refs → j < fs.length → code[offset]? = some w →
    ∃ f place w', fs[j]? = some f ∧ places[id + j]? = some (some place) ∧
      pointTo f place w = .ok w' ∧ code'[offset]? = some w'

/-- How pointing fails: a function was never defined, or a place does not fit into its word. -/
def PointingFails : Stop BuildError → Prop
  | .error (.undefined _) => True
  | .error _ => False
  | .fault x => x.Overflows

theorem mem_offsets {refs : List (Nat × Nat)} {offset id : Nat} :
    offset ∈ (refs.filter (·.2 == id)).map (·.1) ↔ (offset, id) ∈ refs := by
  simp

theorem unique_ref {refs : List (Nat × Nat)} (h : (refs.map (·.1)).Nodup) {offset j k : Nat}
    (hj : (offset, j) ∈ refs) (hk : (offset, k) ∈ refs) : j = k :=
  congrArg Prod.snd (List.inj_on_of_nodup_map h hj hk rfl)

/-- Words of later functions are pointed after those of the first. -/
theorem RefsPointed.cons {refs : List (Nat × Nat)} {places : Array (Option Nat)} {f : FuncInfo}
    {fs : List FuncInfo} {id place : Nat} {offsets : List Nat} {code code₁ code' : Array Word}
    (hrest : RefsPointed refs places fs (id + 1) code₁ code') (hnodup : (refs.map (·.1)).Nodup)
    (hmem : ∀ offset, offset ∈ offsets ↔ (offset, id) ∈ refs)
    (hplace : offsets ≠ [] → places[id]? = some (some place)) (h : Pointed f place offsets code code₁) :
    RefsPointed refs places (f :: fs) id code code' := by
  refine ⟨fun offset hothers => ?_, fun offset j w href hj hw => ?_⟩
  · rw [hrest.others offset fun j hj => ?_, h.others offset fun hin => ?_]
    · have := hothers _ ((hmem _).1 hin)
      rw [List.length_cons] at this
      omega
    · have := hothers j hj
      rw [List.length_cons] at this
      omega
  · cases j with
    | zero =>
      have hin := (hmem _).2 href
      obtain ⟨w', hpoint, hw'⟩ := h.words offset hin w hw
      refine ⟨f, place, w', rfl, hplace (List.ne_nil_of_mem hin), hpoint, ?_⟩
      rw [hrest.others offset fun k hk => ?_, hw']
      have := unique_ref hnodup href hk
      omega
    | succ j =>
      have hplus : id + (j + 1) = id + 1 + j := by omega
      rw [hplus] at href ⊢
      refine hrest.words offset j w href (Nat.lt_of_succ_lt_succ hj) ?_
      rw [h.others offset fun hin => ?_, hw]
      have := unique_ref hnodup href ((hmem _).1 hin)
      omega

theorem pointRefs_spec {refs : List (Nat × Nat)} (hnodup : (refs.map (·.1)).Nodup)
    (places : Array (Option Nat)) (fs : List FuncInfo) (id : Nat) (code : Array Word)
    (hlt : ∀ r ∈ refs, r.1 < code.size) :
    match pointRefs refs places fs id code with
    | .ok code' => RefsPointed refs places fs id code code'
    | .error e => PointingFails e := by
  induction fs generalizing id code with
  | nil => exact ⟨fun _ _ => rfl, fun _ _ _ _ hj => nomatch hj⟩
  | cons f fs ih =>
    have hoffsets : ((refs.filter (·.2 == id)).map (·.1)).Nodup :=
      hnodup.sublist (List.filter_sublist.map _)
    have hmem (offset : Nat) : offset ∈ (refs.filter (·.2 == id)).map (·.1) ↔ (offset, id) ∈ refs :=
      mem_offsets
    unfold pointRefs
    generalize (refs.filter (·.2 == id)).map (·.1) = offsets at hoffsets hmem
    have hstep (code₁ : Array Word) (place : Nat) (hplace : offsets ≠ [] →
          places[id]? = some (some place)) (h : Pointed f place offsets code code₁) :
        match pointRefs refs places fs (id + 1) code₁ with
        | .ok code' => RefsPointed refs places (f :: fs) id code code'
        | .error e => PointingFails e := by
      have hih := ih (id + 1) code₁ fun r hr => h.size ▸ hlt r hr
      split
      · rename_i code' hcode
        rw [hcode] at hih
        exact hih.cons hnodup hmem hplace h
      · rename_i e he
        rw [he] at hih
        exact hih
    cases offsets with
    | nil =>
      exact hstep code 0 (fun hne => absurd rfl hne)
        ⟨rfl, fun _ _ => rfl, fun _ hin => nomatch hin⟩
    | cons offset offsets =>
      cases hplace : places[id]?.join with
      | none => trivial
      | some place =>
        have hall := pointAll_spec f place _ code hoffsets fun offset hin => hlt _ ((hmem _).1 hin)
        cases hpoint : pointAll f place code (offset :: offsets) with
        | error x =>
          rw [hpoint] at hall
          simp only [hpoint]
          exact hall
        | ok code₁ =>
          rw [hpoint] at hall
          simp only [hpoint]
          refine hstep code₁ place (fun _ => ?_) hall
          cases hget : places[id]? with
          | none => simp [hget] at hplace
          | some q => simpa [hget] using hplace

/-! ## Resolving -/

/-- A program is what resolving an assembly makes of it. -/
structure Resolves (a : Assembly) (mainEnd : Nat) (p : Program) : Prop where
  code : RefsPointed a.refs (tables a.funcs).places a.funcs.toList 0 a.code p.code
  consts : p.consts = a.consts
  funcs : p.funcs = a.funcs
  tables : ∀ variadic, p.table variadic = (tables a.funcs).table variadic
  vars : p.vars = a.vars
  mainVars : p.mainVars = a.mainVars
  mainEnd : p.mainEnd = mainEnd

/-- What resolves has no open function and no slot left, and its words are pointed. -/
theorem resolve_eq_ok {a : Assembly} {mainEnd : Nat} {p : Program} : a.resolve mainEnd = .ok p ↔
    a.opened = [] ∧ a.reserved = [] ∧ ∃ code,
      pointRefs a.refs (Assembly.tables a.funcs).places a.funcs.toList 0 a.code = .ok code ∧
      p = ⟨code, a.consts, a.funcs, (Assembly.tables a.funcs).fixed,
        (Assembly.tables a.funcs).variadic, a.vars, a.mainVars, mainEnd⟩ := by
  unfold resolve
  cases a.opened with
  | cons top rest => exact ⟨nofun, nofun⟩
  | nil =>
    cases hmin : a.reserved.min? with
    | some offset =>
      refine ⟨nofun, fun h => ?_⟩
      rw [List.min?_eq_none_iff.2 h.2.1] at hmin
      cases hmin
    | none =>
      simp only [List.min?_eq_none_iff.1 hmin, true_and]
      refine ⟨fun h => ?_, ?_⟩
      · obtain ⟨code, hcode, rfl⟩ := map_eq_ok h
        exact ⟨code, hcode, rfl⟩
      · rintro ⟨code, hcode, rfl⟩
        rw [hcode]
        rfl

theorem resolve_spec {a : Assembly} (mainEnd : Nat) (hopened : a.opened = [])
    (hreserved : a.reserved = []) (hnodup : (a.refs.map (·.1)).Nodup)
    (hlt : ∀ r ∈ a.refs, r.1 < a.code.size) :
    match a.resolve mainEnd with
    | .ok p => Resolves a mainEnd p
    | .error e => PointingFails e := by
  unfold resolve
  simp only [hopened, hreserved, List.min?_nil]
  have hrefs := pointRefs_spec hnodup (Assembly.tables a.funcs).places a.funcs.toList 0 a.code hlt
  cases hp : pointRefs a.refs (Assembly.tables a.funcs).places a.funcs.toList 0 a.code with
  | error e =>
    rw [hp] at hrefs
    exact hrefs
  | ok code =>
    rw [hp] at hrefs
    exact ⟨hrefs, rfl, rfl, fun variadic => by cases variadic <;> rfl, rfl, rfl, rfl⟩

end Assembly

end StackScript
