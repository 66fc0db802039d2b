import Mathlib.Data.List.Induction
import StackScript.Proofs.Placing.Labels
import StackScript.Proofs.Translation.Origins

/-!
# One stretch of code for each function

In a compiled program the functions with a body lie behind the main body, one behind another and each
once, and so do their variables (`Output.Divides.laid`). They are the declarations with a body and the
literals of the file, each of which has one function (`Output.Divides.literals`). A table has the
functions that belong to it once (`Output.Divides.tables`), and what an instruction finds in a table is
the function that the source names there (`Output.Divides.refers`).
-/

namespace StackScript

/-! ## Tables -/

/-- The function has words and belongs into a table. -/
def Tables.belongs (fs : List FuncInfo) (variadic : Bool) (id : Nat) : Bool :=
  match fs[id]? with
  | some g => g.isDefined && g.isVariadic == variadic
  | none => false

namespace Assembly

theorem belongs_append_of_lt {fs gs : List FuncInfo} {variadic : Bool} {id : Nat} (h : id < fs.length) :
    Tables.belongs (fs ++ gs) variadic id = Tables.belongs fs variadic id := by
  unfold Tables.belongs
  rw [List.getElem?_append_left h]

/-- The tables list the functions that have words in order, each once. -/
theorem toList_tables (fs : List FuncInfo) (variadic : Bool) :
    ((fs.foldl Tables.add ⟨#[], #[], #[]⟩).table variadic).toList =
      (List.range fs.length).filter (Tables.belongs fs variadic) ∧
    (fs.foldl Tables.add ⟨#[], #[], #[]⟩).places.size = fs.length := by
  induction fs using List.reverseRecOn with
  | nil => cases variadic <;> exact ⟨rfl, rfl⟩
  | append_singleton fs g ih =>
    obtain ⟨htable, hsize⟩ := ih
    have hold : (List.range fs.length).filter (Tables.belongs (fs ++ [g]) variadic) =
        (List.range fs.length).filter (Tables.belongs fs variadic) :=
      List.filter_congr fun id hid => belongs_append_of_lt (List.mem_range.1 hid)
    have hlast : Tables.belongs (fs ++ [g]) variadic fs.length =
        (g.isDefined && g.isVariadic == variadic) := by
      unfold Tables.belongs
      rw [List.getElem?_concat_length]
    rw [List.foldl_append, List.foldl_cons, List.foldl_nil, List.length_append, List.length_singleton,
      Tables.table_add, Tables.places_add, Array.size_push, hsize, List.range_succ, List.filter_append,
      hold, ← htable]
    refine ⟨?_, rfl⟩
    by_cases hg : g.isDefined = true ∧ g.isVariadic = variadic
    · rw [if_pos hg, Array.toList_push, List.filter_singleton, hlast, hg.1, hg.2]
      simp
    · have hnot : (g.isDefined && g.isVariadic == variadic) = false := by
        rw [Bool.eq_false_iff, ne_eq, Bool.and_eq_true, beq_iff_eq]
        exact hg
      rw [if_neg hg, List.filter_singleton, hlast, hnot]
      simp

end Assembly

/-- Pointing calls to their functions keeps the number of words. -/
theorem Assembly.Resolves.size_code {a : Assembly} {mainEnd : Nat} {p : Program}
    (h : a.Resolves mainEnd p) (hrefs : ∀ r ∈ a.refs, r.1 < a.code.size ∧ r.2 < a.funcs.size) :
    p.code.size = a.code.size := by
  have hwords (offset : Nat) : (p.code[offset]?).isSome = (a.code[offset]?).isSome := by
    by_cases hoffset : ∃ id, (offset, id) ∈ a.refs
    · obtain ⟨id, hid⟩ := hoffset
      obtain ⟨hlt, hid_lt⟩ := hrefs _ hid
      obtain ⟨-, -, w', -, -, -, hw'⟩ := h.code.words offset id _ (by rwa [Nat.zero_add])
        (by rwa [Array.length_toList]) (Array.getElem?_eq_getElem hlt)
      rw [hw', Array.getElem?_eq_getElem hlt]
      rfl
    · rw [h.code.others offset fun j hj => absurd ⟨j, hj⟩ hoffset]
  refine Nat.le_antisymm ?_ ?_
  · by_contra hlt
    have := hwords a.code.size
    rw [Array.getElem?_eq_none (Nat.le_refl _), Array.getElem?_eq_getElem (by omega)] at this
    cases this
  · by_contra hlt
    have := hwords p.code.size
    rw [Array.getElem?_eq_none (Nat.le_refl _), Array.getElem?_eq_getElem (by omega)] at this
    cases this

/-! ## Functions of the source -/

/-- The functions that have a body, in the order in which they are defined: those of declarations and
those of literals. -/
def File.order (f : File) (labels : Nat) : List Nat :=
  Compile.definedFrom 0 f.funcs ++ List.range' f.funcs.length labels

theorem Compile.mem_definedFrom {ds : List FuncDecl} {id : Nat} :
    id ∈ Compile.definedFrom 0 ds ↔ ∃ d, ds[id]? = some d ∧ d.body.isSome := by
  unfold Compile.definedFrom
  simp only [List.mem_map, List.mem_filter, Prod.exists, List.mem_zipIdx_iff_getElem?]
  constructor
  · rintro ⟨d, i, ⟨hd, hbody⟩, rfl⟩
    exact ⟨d, hd, hbody⟩
  · rintro ⟨d, hd, hbody⟩
    exact ⟨d, id, ⟨hd, hbody⟩, rfl⟩

theorem File.nodup_order (f : File) (labels : Nat) : (f.order labels).Nodup := by
  unfold File.order
  refine List.Nodup.append ?_ (List.nodup_range' ..) fun id hid hid' => ?_
  · have hnodup : ((f.funcs.zipIdx 0).map (·.2)).Nodup := by
      rw [List.zipIdx_map_snd]
      exact List.nodup_range' ..
    exact hnodup.sublist (List.filter_sublist.map _)
  · obtain ⟨d, hd, -⟩ := Compile.mem_definedFrom.1 hid
    have hlt := (List.getElem?_eq_some_iff.1 hd).1
    have hle := (List.mem_range'_1.1 hid').1
    omega

/-- Within the body of a function, the source names a function: by a name that stands for a declared
function with a body, or by a literal. -/
inductive Output.Refers (o : Output) (f : File) (func : Option Nat) (id : Nat) : Prop
  | decl {S : Site} {d : FuncDecl} (hout : S.out = o) (hbody : S.body.func = func)
    (hfind : S.scopes.find? d.name = some (.func id)) (hd : f.funcs[id]? = some d)
    (hdefined : d.body.isSome)
  | literal {S : Site} {label : Nat} {stmts : List Stmt} {sig : Signature} (hout : S.out = o)
    (hbody : S.body.func = func) (h : LiteralAt S label stmts id sig)

/-- How the code of a program is divided among the functions of a file with some labels. -/
structure Output.Divides (o : Output) (f : File) (labels : Nat) : Prop where
  /-- There is one function for every declaration and one for every literal. -/
  size : o.program.funcs.size = f.funcs.length + labels
  names : ∀ (id : Nat) (d : FuncDecl), f.funcs[id]? = some d → o.program.name? id = some d.name
  literals : ∀ label, label < labels → ∃ id, o.literal label = some id ∧ f.funcs.length ≤ id ∧
    id < f.funcs.length + labels
  injective : ∀ label label' id, o.literal label = some id → o.literal label' = some id →
    label = label'
  surjective : ∀ id, f.funcs.length ≤ id → id < f.funcs.length + labels →
    ∃ label, label < labels ∧ o.literal label = some id
  once : (f.order labels).Nodup
  /-- Words and variables are those of the main body and of the functions in order. -/
  laid : Laid o.program.funcs (f.order labels) ⟨o.program.mainEnd, o.program.mainVars.size⟩
    ⟨o.program.code.size, o.program.vars.size⟩
  ended : ∀ (id : Nat) (g : FuncInfo), o.program.funcs[id]? = some g →
    (g.stop.isSome ↔ id ∈ f.order labels)
  /-- The tables list the functions that have words, each in the one that it belongs to. -/
  tables : ∀ variadic, (o.program.table variadic).toList =
    (List.range o.program.funcs.size).filter (Tables.belongs o.program.funcs.toList variadic)
  /-- What an instruction finds in a table is a function that the source names in its body. -/
  refers : ∀ (func : Option Nat) (first stop offset : Nat) (i : Instr) (variadic : Bool) (place : Nat),
    o.program.Covers func first stop → first ≤ offset → offset < stop →
    o.program.instr? offset = some i → i.entry? = some (variadic, place) →
    ∃ id, (o.program.table variadic)[place]? = some id ∧ id ∈ f.order labels ∧ o.Refers f func id
  /-- A name that stands for a declared function has code only if the function has a body. -/
  defined : ∀ (S : Site) (name : String) (id : Nat) (p : Pushed) (is : List Instr), S.out = o →
    S.scopes.find? name = some (.func id) → (Code S (.ident name) p is ∨
      ∃ ref sig arity, CalleeAt S (.ident name) ref sig ∧ CallCode S.program ref arity is) →
    ∃ d, f.funcs[id]? = some d ∧ d.name = name ∧ d.body.isSome

theorem HostAt.find?_eq_none {S : Site} {name : String} {x : NativeSymbol}
    (h : HostAt S (.ident name) x) : S.scopes.find? name = none := by
  cases h
  assumption

/-- The code of a name that stands for a declared function finds the function in a table. -/
theorem exists_funcAt {S : Site} {name : String} {id : Nat} {p : Pushed} {is : List Instr}
    (hfind : S.scopes.find? name = some (.func id)) (h : Code S (.ident name) p is ∨
      ∃ ref sig arity, CalleeAt S (.ident name) ref sig ∧ CallCode S.program ref arity is) :
    ∃ sig variadic place, FuncAt S name id sig ∧ S.program.At id variadic place := by
  obtain hvalue | ⟨ref, sig, arity, hcallee, hcall⟩ := h
  · cases hvalue with
    | func hfunc hplace =>
      cases hfind.symm.trans hfunc.find
      exact ⟨_, _, _, hfunc, hplace⟩
    | var hvar => cases hfind.symm.trans hvar.find
    | param hparam =>
      cases hparam with
      | mk hparam => cases hfind.symm.trans hparam
    | package hpackage => cases hfind.symm.trans hpackage
    | native hhost => cases hfind.symm.trans hhost.find?_eq_none
    | const hmeans =>
      cases hmeans with
      | truth hnone => cases hfind.symm.trans hnone
  · cases hcallee with
    | func hfunc =>
      cases hfind.symm.trans hfunc.find
      cases hcall with
      | fixed hplace => exact ⟨_, _, _, hfunc, hplace⟩
      | variadic hplace => exact ⟨_, _, _, hfunc, hplace⟩
    | native hhost => cases hfind.symm.trans hhost.find?_eq_none

section

variable {L : Layout} {s : CompileState} {f : File} {p : Program} {mainEnd : Nat}

theorem Laid.stop {fs : Array FuncInfo} {ids : List Nat} {x y : Mark} (h : Laid fs ids x y) {id : Nat}
    (hid : id ∈ ids) : ∃ g : FuncInfo, fs[id]? = some g ∧ g.entry.isSome ∧ g.stop.isSome := by
  induction h with
  | nil => cases hid
  | cons hg h hs ih =>
    obtain rfl | hid := List.mem_cons.1 hid
    · exact ⟨_, hg, by rw [h.entry]; rfl, by rw [h.stop]; rfl⟩
    · exact ih hid

theorem Laid.le_entry {fs : Array FuncInfo} {ids : List Nat} {x y : Mark} (h : Laid fs ids x y)
    {id entry : Nat} {g : FuncInfo} (hid : id ∈ ids) (hg : fs[id]? = some g)
    (hentry : g.entry = some entry) : x.code ≤ entry := by
  induction h with
  | nil => cases hid
  | cons hg' h hs ih =>
    obtain rfl | hid := List.mem_cons.1 hid
    · cases hg.symm.trans hg'
      cases hentry.symm.trans h.entry
      exact Nat.le_refl _
    · exact Nat.le_trans h.le (ih hid)

/-- A word belongs to one of the functions. -/
theorem Laid.unique {fs : Array FuncInfo} {ids : List Nat} {x y : Mark} (h : Laid fs ids x y)
    {id id' entry entry' stop stop' n : Nat} {g g' : FuncInfo} (hid : id ∈ ids) (hid' : id' ∈ ids)
    (hg : fs[id]? = some g) (hg' : fs[id']? = some g') (hentry : g.entry = some entry)
    (hentry' : g'.entry = some entry') (hstop : g.stop = some stop) (hstop' : g'.stop = some stop')
    (hle : entry ≤ n) (hlt : n < stop) (hle' : entry' ≤ n) (hlt' : n < stop') : id = id' := by
  induction h with
  | nil => cases hid
  | cons hfirst h hs ih =>
    obtain rfl | htail := List.mem_cons.1 hid
    · obtain rfl | htail' := List.mem_cons.1 hid'
      · rfl
      · cases hg.symm.trans hfirst
        cases hstop.symm.trans h.stop
        exact absurd (hs.le_entry htail' hg' hentry') (by omega)
    · obtain rfl | htail' := List.mem_cons.1 hid'
      · cases hg'.symm.trans hfirst
        cases hstop'.symm.trans h.stop
        exact absurd (hs.le_entry htail hg hentry) (by omega)
      · exact ih htail htail'

/-- A word belongs to one body. -/
theorem Output.Divides.covers_unique {o : Output} {labels : Nat} (h : o.Divides f labels)
    {func func' : Option Nat} {first first' stop stop' n : Nat}
    (hc : o.program.Covers func first stop) (hc' : o.program.Covers func' first' stop')
    (hle : first ≤ n) (hlt : n < stop) (hle' : first' ≤ n) (hlt' : n < stop') :
    func = func' ∧ stop = stop' := by
  have behind {id entry stop : Nat} {g : FuncInfo} (hg : o.program.funcs[id]? = some g)
      (hentry : g.entry = some entry) (hstop : g.stop = some stop) :
      id ∈ f.order labels ∧ o.program.mainEnd ≤ entry := by
    have hid := (h.ended id g hg).1 (by rw [hstop]; rfl)
    exact ⟨hid, h.laid.le_entry hid hg hentry⟩
  cases hc with
  | main =>
    cases hc' with
    | main => exact ⟨rfl, rfl⟩
    | func hg' hentry' hstop' => exact absurd (behind hg' hentry' hstop').2 (by omega)
  | func hg hentry hstop =>
    obtain ⟨hid, hmain⟩ := behind hg hentry hstop
    cases hc' with
    | main => omega
    | func hg' hentry' hstop' =>
      obtain ⟨hid', -⟩ := behind hg' hentry' hstop'
      obtain rfl :=
        h.laid.unique hid hid' hg hg' hentry hentry' hstop hstop' hle hlt hle' hlt'
      cases hg.symm.trans hg'
      cases hstop.symm.trans hstop'
      exact ⟨rfl, rfl⟩

theorem Labelled.lookup_of_mem {literals : List (Nat × Nat)} {n label id : Nat}
    (h : Labelled L literals n) (hmem : (label, id) ∈ literals) : literals.lookup label = some id :=
  StackScript.lookup_of_mem h.labels_nodup hmem

/-- Literals and functions that are no declarations correspond to each other. -/
theorem Labelled.surjective {literals : List (Nat × Nat)} {n : Nat} (h : Labelled L literals n)
    (hle : ∀ p ∈ literals, L.decls ≤ p.2) {id : Nat} (hid : L.decls ≤ id) (hlt : id < n) :
    ∃ p ∈ literals, p.2 = id := by
  have hsub : literals.map (·.2) ⊆ List.range' L.decls literals.length := fun i hi => by
    obtain ⟨q, hq, rfl⟩ := List.mem_map.1 hi
    have := (h.lt q hq).2
    rw [h.count] at this
    exact List.mem_range'_1.2 ⟨hle q hq, this⟩
  have hperm := (List.subperm_of_subset h.funcs_nodup hsub).perm_of_length_le
    (Nat.le_of_eq (by rw [List.length_range', List.length_map]))
  have hmem : id ∈ literals.map (·.2) :=
    hperm.mem_iff.2 (List.mem_range'_1.2 ⟨hid, by rw [← h.count]; exact hlt⟩)
  obtain ⟨q, hq, rfl⟩ := List.mem_map.1 hmem
  exact ⟨q, hq, rfl⟩

theorem FileCode.literal_of_label {o : Output} (h : FileCode o f) (ho : o.Complete)
    (hended : ∀ (id : Nat) (d : FuncDecl), f.funcs[id]? = some d → d.body.isSome →
      ∃ g : FuncInfo, o.program.funcs[id]? = some g ∧ g.stop.isSome) :
    ∀ label ∈ f.labels, (o.literal label).isSome := by
  intro label hl
  obtain hl | hl := List.mem_append.1 hl
  · obtain ⟨S', is, -, -, hcode, -⟩ := h.main
    exact stmts_literal_of_label ho rfl hcode hl
  · obtain ⟨d, hd, hl⟩ := List.mem_flatMap.1 hl
    obtain ⟨id, hid⟩ := List.mem_iff_getElem?.1 hd
    cases hbody : d.body with
    | none =>
      rw [hbody] at hl
      cases hl
    | some body =>
      rw [hbody] at hl
      obtain ⟨g, hg, hstop⟩ := hended id d hid (by rw [hbody]; rfl)
      obtain ⟨-, -, -, -, -, -, -, -, -, -, -, -, hcode⟩ := h.funcs id g hg hstop
      rw [h.decls id d body hid hbody] at hcode
      exact stmts_literal_of_label ho rfl hcode hl

theorem name_of_compiles (h : Compile.Compiles L f mainEnd s) (hp : s.asm.Resolves mainEnd p) {id : Nat}
    {d : FuncDecl} (hd : f.funcs[id]? = some d) : p.name? id = some d.name := by
  obtain ⟨g, hg, hname⟩ := h.names id d hd
  rw [Program.name?, hp.funcs, hg, Option.map_some, hname]

variable (hf : f.LaidOut L) (h : Compile.Compiles L f mainEnd s) (hp : s.asm.Resolves mainEnd p)

include hf h hp

theorem complete_of_compiles (hsmall : p.Small) : (outputOf L s p).Complete where
  literals label id hl := by
    obtain ⟨hle, hlt, -⟩ := h.between.declared.literals label id hl
    have hqueued : id ∈ List.range' L.decls (s.asm.funcs.size - L.decls) :=
      List.mem_range'_1.2 ⟨hle, by omega⟩
    obtain ⟨g, hg, -, hstop⟩ := h.laid.stop (List.mem_append_right _ hqueued)
    exact ⟨g, (congrArg (·[id]?) hp.funcs).trans hg, hstop⟩
  funcs := (fileCode_of_compiles hf h hp hsmall).funcs

/-- Every literal has a function, so there are as many of these as there are labels. -/
theorem length_literals (hlabels : f.labels = List.range L.labels) (hsmall : p.Small) :
    s.literals.length = L.labels := by
  have hlabelled := h.between.declared.labels
  have hall := (fileCode_of_compiles hf h hp hsmall).literal_of_label
    (complete_of_compiles hf h hp hsmall) fun id d hd hbody => by
      have hdefined : id ∈ Compile.definedFrom 0 f.funcs :=
        Compile.mem_definedFrom.2 ⟨d, hd, hbody⟩
      obtain ⟨g, hg, -, hstop⟩ := h.laid.stop (List.mem_append_left _ hdefined)
      exact ⟨g, (congrArg (·[id]?) hp.funcs).trans hg, hstop⟩
  have hsub : List.range L.labels ⊆ s.literals.map (·.1) := fun label hl => by
    obtain ⟨id, hid⟩ := Option.isSome_iff_exists.1 (hall label (hlabels ▸ hl))
    exact List.mem_map.2 ⟨_, lookup_mem hid, rfl⟩
  have hle := (List.subperm_of_subset List.nodup_range hsub).length_le
  have hsize := hlabelled.size_le
  rw [List.length_range, List.length_map] at hle
  rw [hlabelled.count] at hsize
  omega

variable (hlabels : f.labels = List.range L.labels) (hsmall : p.Small)

include hlabels hsmall

theorem size_funcs_of_compiles : p.funcs.size = f.funcs.length + L.labels := by
  rw [hp.funcs, h.between.declared.labels.count, length_literals hf h hp hlabels hsmall, hf.decls]

theorem laid_of_compiles : Laid p.funcs (f.order L.labels) ⟨p.mainEnd, p.mainVars.size⟩
    ⟨p.code.size, p.vars.size⟩ := by
  have hlaid := h.laid
  rw [← hp.funcs, size_funcs_of_compiles hf h hp hlabels hsmall, hf.decls, Nat.add_sub_cancel_left] at hlaid
  rw [hp.mainEnd, hp.mainVars, hp.size_code h.between.tidy.ref_lt, hp.vars]
  exact hlaid

/-- A literal has a function behind those that are declared. -/
theorem literal_bounds {label id : Nat} (hl : s.literals.lookup label = some id) :
    f.funcs.length ≤ id ∧ id < f.funcs.length + L.labels := by
  obtain ⟨hle, hlt, -⟩ := h.between.declared.literals label id hl
  rw [← hp.funcs, size_funcs_of_compiles hf h hp hlabels hsmall] at hlt
  exact ⟨hf.decls ▸ hle, hlt⟩

theorem exists_lookup {label : Nat} (hlt : label < L.labels) :
    ∃ id, s.literals.lookup label = some id := by
  have hlabelled := h.between.declared.labels
  have hsub : s.literals.map (·.1) ⊆ List.range L.labels := fun i hi => by
    obtain ⟨q, hq, rfl⟩ := List.mem_map.1 hi
    exact List.mem_range.2 (hlabelled.lt q hq).1
  have hperm := (List.subperm_of_subset hlabelled.labels_nodup hsub).perm_of_length_le (Nat.le_of_eq (by
    rw [List.length_range, List.length_map, length_literals hf h hp hlabels hsmall]))
  obtain ⟨⟨_, id⟩, hq, rfl⟩ := List.mem_map.1 (hperm.symm.subset (List.mem_range.2 hlt))
  exact ⟨id, hlabelled.lookup_of_mem hq⟩

/-- A function behind those that are declared is that of a literal. -/
theorem exists_label {id : Nat} (hle : f.funcs.length ≤ id) (hlt : id < f.funcs.length + L.labels) :
    ∃ label, label < L.labels ∧ s.literals.lookup label = some id := by
  have hlabelled := h.between.declared.labels
  rw [← size_funcs_of_compiles hf h hp hlabels hsmall, hp.funcs] at hlt
  obtain ⟨⟨label, _⟩, hq, rfl⟩ := hlabelled.surjective (fun q hq =>
    (h.between.declared.literals q.1 q.2 (hlabelled.lookup_of_mem hq)).1) (hf.decls ▸ hle) hlt
  exact ⟨label, (hlabelled.lt _ hq).1, hlabelled.lookup_of_mem hq⟩

theorem ended_iff {id : Nat} {g : FuncInfo} (hg : p.funcs[id]? = some g) :
    g.stop.isSome ↔ id ∈ f.order L.labels := by
  have hsize := size_funcs_of_compiles hf h hp hlabels hsmall
  refine ⟨fun hstop => ?_, fun hid => ?_⟩
  · have hlt := (Array.getElem?_eq_some_iff.1 hg).1
    have hfuncs : p.funcs = s.asm.funcs := hp.funcs
    obtain hid | hle := h.ended id g (hfuncs ▸ hg) hstop
    · exact List.mem_append_left _ hid
    · exact List.mem_append_right _ (List.mem_range'_1.2 ⟨hf.decls ▸ hle, hsize ▸ hlt⟩)
  · obtain ⟨g', hg', -, hstop⟩ := (laid_of_compiles hf h hp hlabels hsmall).stop hid
    cases hg.symm.trans hg'
    exact hstop

theorem mem_order_of_table {variadic : Bool} {place id : Nat}
    (hid : (p.table variadic)[place]? = some id) : id ∈ f.order L.labels := by
  obtain ⟨g, hg, -, hstop⟩ := (fileCode_of_compiles hf h hp hsmall).tables variadic place id hid
  exact (ended_iff hf h hp hlabels hsmall hg).1 hstop

/-- A name that stands for a function with words is that of a declaration with a body. -/
theorem exists_decl {S : Site} {name : String} {id : Nat} {sig : Signature}
    (hS : S.out = outputOf L s p) (hfunc : FuncAt S name id sig) (hid : id ∈ f.order L.labels) :
    ∃ d, f.funcs[id]? = some d ∧ d.name = name ∧ d.body.isSome := by
  obtain hid | hid := List.mem_append.1 hid
  · obtain ⟨d, hd, hbody⟩ := Compile.mem_definedFrom.1 hid
    have hname := hfunc.name
    rw [Site.program, hS] at hname
    exact ⟨d, hd, Option.some.inj ((name_of_compiles h hp hd).symm.trans hname), hbody⟩
  · obtain ⟨hle, hlt⟩ := List.mem_range'_1.1 hid
    obtain ⟨label, -, hlabel⟩ := exists_label hf h hp hlabels hsmall hle hlt
    have hnone := hfunc.declared label
    rw [hS] at hnone
    exact absurd hlabel hnone

theorem refers_of_compiles {func : Option Nat} {first stop offset : Nat} {i : Instr} {variadic : Bool}
    {place : Nat} (hcovers : p.Covers func first stop) (hle : first ≤ offset) (hlt : offset < stop)
    (hi : p.instr? offset = some i) (hentry : i.entry? = some (variadic, place)) :
    ∃ id, (p.table variadic)[place]? = some id ∧ id ∈ f.order L.labels ∧
      (outputOf L s p).Refers f func id := by
  have hat {id : Nat} (hid : (p.table variadic)[place]? = some id) : id ∈ f.order L.labels :=
    mem_order_of_table hf h hp hlabels hsmall hid
  obtain ⟨b, rfl, hfrom⟩ := (fileCode_of_compiles hf h hp hsmall).from hcovers hle hlt hi
  cases hfrom with
  | plain _ hnone | native _ _ _ hnone => cases hnone.symm.trans hentry
  | var _ _ _ _ hnone => cases hnone.symm.trans hentry
  | func hout hbody hfunc hplace hi' =>
    cases hi'.symm.trans hentry
    obtain ⟨d, hd, rfl, hdefined⟩ :=
      exists_decl hf h hp hlabels hsmall hout hfunc (hat hplace.entry)
    exact ⟨_, hplace.entry, hat hplace.entry,
      .decl hout (congrArg Body.func hbody) hfunc.find hd hdefined⟩
  | literal hout hbody hliteral hplace hi' =>
    cases hi'.symm.trans hentry
    exact ⟨_, hplace.entry, hat hplace.entry,
      .literal hout (congrArg Body.func hbody) hliteral⟩

/-- The program of a file is divided among its functions. -/
theorem divides_of_compiles : (outputOf L s p).Divides f L.labels where
  size := size_funcs_of_compiles hf h hp hlabels hsmall
  names _ _ := name_of_compiles h hp
  literals label hlt := by
    obtain ⟨id, hid⟩ := exists_lookup hf h hp hlabels hsmall hlt
    exact ⟨id, hid, literal_bounds hf h hp hlabels hsmall hid⟩
  injective _ _ _ := label_unique h.between
  surjective _ := exists_label hf h hp hlabels hsmall
  once := f.nodup_order L.labels
  laid := laid_of_compiles hf h hp hlabels hsmall
  ended _ _ := ended_iff hf h hp hlabels hsmall
  tables variadic := by
    show (p.table variadic).toList = _
    rw [hp.tables, Assembly.tables, ← Array.foldl_toList, (Assembly.toList_tables _ variadic).1]
    rw [show (outputOf L s p).program.funcs = s.asm.funcs from hp.funcs, Array.length_toList]
  refers _ _ _ _ _ _ _ := refers_of_compiles hf h hp hlabels hsmall
  defined S name id e is hout hfind hcoded := by
    obtain ⟨sig, variadic, place, hfunc, hplace⟩ := exists_funcAt hfind hcoded
    have hentry := hplace.entry
    rw [Site.program, hout] at hentry
    exact exists_decl hf h hp hlabels hsmall hout hfunc
      (mem_order_of_table hf h hp hlabels hsmall hentry)

end

/-! ## Files -/

/-- What a compiled file is made of. -/
theorem File.output_of_compile {r : Registry} {folds : Bool} {f : File} {p : Program}
    (h : f.compile r folds = .ok p) (hsmall : p.Small) : ∃ o : Output, o.registry = r ∧
      o.folds = folds ∧ o.program = p ∧ FileCode o f.labelled.1 ∧ o.Complete ∧
      o.Divides f.labelled.1 f.labelled.2 ∧ ∃ mainEnd s,
        (Compile.emitFile f.labelled.1 f.labelled.2 ⟨r, folds⟩).exec .initial = (.ok mainEnd, s) ∧
          s.queue = [] := by
  have hspec := f.compile_spec r folds
  rw [h] at hspec
  obtain ⟨L, s, mainEnd, henv, hlabels, hf, hexec, hcompiles, hp⟩ := hspec
  refine ⟨outputOf L s p, by rw [outputOf, henv], by rw [outputOf, henv], rfl,
    fileCode_of_compiles hf hcompiles hp hsmall, complete_of_compiles hf hcompiles hp hsmall, ?_,
    mainEnd, s, hexec, hcompiles.queue⟩
  rw [← hlabels]
  exact divides_of_compiles hf hcompiles hp (hlabels ▸ f.labels_labelled) hsmall

/-- The functions that a compiled program has are those of its source, each with one stretch of code:
no body is left waiting, and every reference finds the function that it names. -/
theorem File.divides_of_compile {r : Registry} {folds : Bool} {f : File} {p : Program}
    (h : f.compile r folds = .ok p) (hsmall : p.Small) : ∃ o : Output, o.registry = r ∧
      o.folds = folds ∧ o.program = p ∧ FileCode o f.labelled.1 ∧
      o.Divides f.labelled.1 f.labelled.2 ∧ ∃ mainEnd s,
        (Compile.emitFile f.labelled.1 f.labelled.2 ⟨r, folds⟩).exec .initial = (.ok mainEnd, s) ∧
          s.queue = [] := by
  obtain ⟨o, hr, hfolds, hp, hcode, -, hdivides, hexec⟩ := File.output_of_compile h hsmall
  exact ⟨o, hr, hfolds, hp, hcode, hdivides, hexec⟩

/-- A main body that calls a function, which is declared before the one that it calls in turn and
which makes a function of its own. -/
def File.forward : File :=
  ⟨[], [⟨"first", none, ⟨[], false, []⟩, some [.expr (.call (.ident "second") [] false)]⟩,
    ⟨"second", none, ⟨[], false, []⟩, some [.assign .define [.ident "f"]
      [.funcLit 0 ⟨[], false, []⟩ []], .expr (.call (.ident "f") [] false)]⟩],
    [.expr (.call (.ident "first") [] false)]⟩

namespace Forward

@[irreducible]
def program : Program := (File.forward.compile .empty true).toOption.get (by decide +kernel)

theorem compiles : File.forward.compile .empty true = .ok program := by
  unfold program
  exact eq_ok_get _

theorem small : program.Small := by
  have hvars : ∀ f ∈ program.funcs, f.vars.size ≤ 1 <<< 32 := by decide +kernel
  exact ⟨by decide +kernel, by decide +kernel, fun id f hf => hvars f (Array.mem_of_getElem? hf)⟩

theorem divides : File.forward.compile .empty true = .ok program ∧ program.Small ∧
    ∃ o : Output, o.program = program ∧ o.Divides File.forward.labelled.1 1 := by
  obtain ⟨o, -, -, hp, -, hdivides, -⟩ := File.divides_of_compile compiles small
  exact ⟨compiles, small, o, hp, hdivides⟩

end Forward

end StackScript
