import Mathlib.Logic.ExistsUnique
import StackScript.Proofs.Running.Refused
import StackScript.Proofs.Translation.Bodies

/-!
# Slots

Functions and variables are declared to an assembly in any order, several functions may be open, and
declarations may be refused in between. Through all that each variable keeps one slot of one frame,
with the address of that slot; the result variables of a function are the first of its frame; and
whether a function is variadic is decided once (`Draft.slotted_of_after`). Slots are counted in
thirty-two bits.
-/

namespace StackScript

/-! ## Frames -/

namespace Assembly

/-- Depth and variables of a frame: that of a function, or of the main body. -/
def frame? (a : Assembly) : Option Nat → Option (Nat × Array Nat)
  | none => some (0, a.mainVars)
  | some f => a.funcs[f]?.map fun info => (info.depth, info.vars)

/-- A variable stands in a slot of a frame. -/
def Holds (a : Assembly) (owner : Option Nat) (slot id : Nat) : Prop :=
  ∃ depth vars, a.frame? owner = some (depth, vars) ∧ vars[slot]? = some id

/-- Every variable stands in one slot, and has the address of that slot. -/
structure Slotted (a : Assembly) : Prop where
  address : ∀ owner depth vars, a.frame? owner = some (depth, vars) → ∀ slot id,
    vars[slot]? = some id → ∃ v : Var, a.vars[id]? = some v ∧ v.addr = some ⟨depth, narrow slot⟩
  held : ∀ id < a.vars.size, ∃ owner slot, a.Holds owner slot id
  once : ∀ owner owner' slot slot' id, a.Holds owner slot id → a.Holds owner' slot' id →
    owner = owner' ∧ slot = slot'

variable {a a' : Assembly} {owner : Option Nat} {slot id depth : Nat}

theorem Slotted.lt (h : a.Slotted) (hid : a.Holds owner slot id) : id < a.vars.size := by
  obtain ⟨depth, vars, hframe, hslot⟩ := hid
  obtain ⟨v, hv, -⟩ := h.address owner depth vars hframe slot id hslot
  exact Extends.lt_of_getElem? hv

theorem slotted_empty : Slotted .empty where
  address owner depth vars hframe slot id hslot := by
    cases owner <;> cases hframe
    cases hslot
  held id hid := absurd hid (Nat.not_lt_zero id)
  once owner owner' slot slot' id hid := by
    obtain ⟨depth, vars, hframe, hslot⟩ := hid
    cases owner <;> cases hframe
    cases hslot

/-- Frames and variables that stay as they are stay in order. -/
theorem Slotted.congr (h : a.Slotted) (hvars : a'.vars = a.vars) (hframe : a'.frame? = a.frame?) :
    a'.Slotted where
  address := by rw [hvars, hframe]; exact h.address
  held := by unfold Holds; rw [hvars, hframe]; exact h.held
  once := by unfold Holds; rw [hframe]; exact h.once

/-- A new frame is empty. -/
theorem Slotted.newFrame {f : Nat} (h : a.Slotted) (hvars : a'.vars = a.vars)
    (hnew : a'.frame? (some f) = some (depth, #[])) (hold : a.frame? (some f) = none)
    (hframe : ∀ owner, owner ≠ some f → a'.frame? owner = a.frame? owner) : a'.Slotted := by
  have holds_iff (owner : Option Nat) (slot id : Nat) : a'.Holds owner slot id ↔ a.Holds owner slot id := by
    by_cases howner : owner = some f
    · subst howner
      constructor
      · rintro ⟨depth', vars', hframe', hslot⟩
        cases hnew.symm.trans hframe'
        cases hslot
      · rintro ⟨depth', vars', hframe', -⟩
        cases hold.symm.trans hframe'
    · rw [Holds, Holds, hframe owner howner]
  refine ⟨fun owner depth' vars' hframe' slot id hslot => ?_, ?_, ?_⟩
  · by_cases howner : owner = some f
    · subst howner
      cases hnew.symm.trans hframe'
      cases hslot
    · rw [hvars]
      exact h.address owner depth' vars' (hframe owner howner ▸ hframe') slot id hslot
  · simpa only [hvars, holds_iff] using h.held
  · simpa only [holds_iff] using h.once

/-! ### New variables -/

/-- New variables stand at the end of one frame, in their order. -/
structure Declares (a : Assembly) (owner : Option Nat) (vs : List Var) (a' : Assembly) : Prop where
  frames : ∃ depth vars, a.frame? owner = some (depth, vars) ∧
    a'.frame? owner = some (depth, vars ++ (List.range' a.vars.size vs.length).toArray) ∧
    a'.vars = a.vars ++ (placedAt depth vars.size vs).toArray
  others : ∀ owner', owner' ≠ owner → a'.frame? owner' = a.frame? owner'

theorem length_placedAt {place : Nat} {vs : List Var} : (placedAt depth place vs).length = vs.length :=
  List.length_mapIdx

theorem getElem?_placedAt {place i : Nat} {vs : List Var} (h : i < vs.length) :
    (placedAt depth place vs)[i]? = some ((vs[i]).placed depth (place + i)) := by
  rw [placedAt, List.getElem?_mapIdx, List.getElem?_eq_getElem h, Option.map_some]

/-- What stands in a frame that has grown stood there before, or is new. -/
theorem Declares.holds_iff {vars : Array Nat} {vs : List Var} (h : a.Declares owner vs a')
    (hframe : a.frame? owner = some (depth, vars)) (owner' : Option Nat) (slot id : Nat) :
    a'.Holds owner' slot id ↔ a.Holds owner' slot id ∨
      owner' = owner ∧ ∃ i < vs.length, slot = vars.size + i ∧ id = a.vars.size + i := by
  obtain ⟨_, _, hframe₀, hframe', -⟩ := h.frames
  cases hframe.symm.trans hframe₀
  by_cases howner : owner' = owner
  · subst howner
    constructor
    · rintro ⟨_, _, hfound, hslot⟩
      cases hframe'.symm.trans hfound
      by_cases hlt : slot < vars.size
      · rw [Array.getElem?_append_left hlt] at hslot
        exact .inl ⟨depth, vars, hframe, hslot⟩
      · rw [Array.getElem?_append_right (by omega), List.getElem?_toArray] at hslot
        obtain ⟨hi, hid⟩ := List.getElem?_eq_some_iff.1 hslot
        rw [List.length_range'] at hi
        rw [List.getElem_range', Nat.one_mul] at hid
        exact .inr ⟨rfl, slot - vars.size, hi, by omega, hid.symm⟩
    · rintro (⟨_, _, hfound, hslot⟩ | ⟨-, i, hi, rfl, rfl⟩)
      · cases hframe.symm.trans hfound
        exact ⟨_, _, hframe', Extends.append _ _ slot id hslot⟩
      · refine ⟨_, _, hframe', ?_⟩
        rw [Array.getElem?_append_right (by omega), List.getElem?_toArray, Nat.add_sub_cancel_left,
          List.getElem?_range' hi, Nat.one_mul]
  · rw [Holds, Holds, h.others owner' howner]
    simp only [howner, false_and, or_false]

theorem Declares.size_vars {vs : List Var} (h : a.Declares owner vs a') :
    a'.vars.size = a.vars.size + vs.length := by
  obtain ⟨depth, vars, -, -, hvars⟩ := h.frames
  rw [hvars, Array.size_append]
  exact congrArg (a.vars.size + ·) length_placedAt

theorem Declares.extends_vars {vs : List Var} (h : a.Declares owner vs a') : Extends a.vars a'.vars := by
  obtain ⟨depth, vars, -, -, hvars⟩ := h.frames
  exact hvars ▸ .append _ _

/-- New variables get the slots behind those that are taken. -/
theorem Slotted.declares {vs : List Var} (h : a.Slotted) (hnew : a.Declares owner vs a') :
    a'.Slotted := by
  obtain ⟨depth, vars, hframe, hframe', hvars⟩ := hnew.frames
  have holds_iff := hnew.holds_iff hframe
  refine ⟨fun owner' depth' vars' hfound slot id hslot => ?_, fun id hid => ?_, ?_⟩
  · obtain hold | ⟨rfl, i, hi, rfl, rfl⟩ := (holds_iff owner' slot id).1 ⟨depth', vars', hfound, hslot⟩
    · obtain ⟨depth₀, vars₀, hfound₀, hslot₀⟩ := hold
      obtain ⟨v, hv, haddr⟩ := h.address owner' depth₀ vars₀ hfound₀ slot id hslot₀
      have hdepth : depth₀ = depth' := by
        by_cases howner : owner' = owner
        · subst howner
          cases hframe.symm.trans hfound₀
          cases hframe'.symm.trans hfound
          rfl
        · rw [hnew.others owner' howner, hfound₀] at hfound
          cases hfound
          rfl
      exact ⟨v, hnew.extends_vars id v hv, hdepth ▸ haddr⟩
    · cases hframe'.symm.trans hfound
      refine ⟨(vs[i]).placed depth (vars.size + i), ?_, rfl⟩
      rw [hvars, Array.getElem?_append_right (by omega), List.getElem?_toArray, Nat.add_sub_cancel_left,
        getElem?_placedAt hi]
  · rw [hnew.size_vars] at hid
    by_cases hlt : id < a.vars.size
    · obtain ⟨owner', slot, hheld⟩ := h.held id hlt
      exact ⟨owner', slot, (holds_iff owner' slot id).2 (.inl hheld)⟩
    · exact ⟨owner, vars.size + (id - a.vars.size), (holds_iff _ _ _).2
        (.inr ⟨rfl, id - a.vars.size, by omega, rfl, by omega⟩)⟩
  · intro owner₁ owner₂ slot₁ slot₂ id h₁ h₂
    -- A number is new in both places or in none.
    obtain h₁ | ⟨rfl, i, -, rfl, rfl⟩ := (holds_iff owner₁ slot₁ id).1 h₁
    · obtain h₂ | ⟨-, j, -, -, rfl⟩ := (holds_iff owner₂ slot₂ id).1 h₂
      · exact h.once owner₁ owner₂ slot₁ slot₂ id h₁ h₂
      · have := h.lt h₁
        omega
    · obtain h₂ | ⟨rfl, j, -, rfl, hij⟩ := (holds_iff owner₂ slot₂ _).1 h₂
      · have := h.lt h₂
        omega
      · exact ⟨rfl, by omega⟩

end Assembly

/-! ## What lasts -/

/-- A function keeps its depth and its slots, and stays as variadic as it was once that is decided. -/
structure FuncInfo.Stays (f g : FuncInfo) : Prop where
  depth : g.depth = f.depth
  vars : Extends f.vars g.vars
  variadicity : f.variadicity = .unresolved ∨ g.variadicity = f.variadicity

theorem FuncInfo.Stays.refl (f : FuncInfo) : f.Stays f := ⟨rfl, .refl _, .inr rfl⟩

theorem FuncInfo.Stays.trans {f g h : FuncInfo} (hf : f.Stays g) (hg : g.Stays h) : f.Stays h where
  depth := hg.depth.trans hf.depth
  vars := hf.vars.trans hg.vars
  variadicity := by
    obtain hopen | hsame := hf.variadicity
    · exact .inl hopen
    · exact hg.variadicity.imp (fun h => hsame ▸ h) fun h => h.trans hsame

/-- Variables keep their numbers and addresses, frames their slots, and functions theirs. -/
structure Assembly.Stays (a a' : Assembly) : Prop where
  vars : Extends a.vars a'.vars
  mainVars : Extends a.mainVars a'.mainVars
  funcs : ∀ (id : Nat) (f : FuncInfo), a.funcs[id]? = some f →
    ∃ g : FuncInfo, a'.funcs[id]? = some g ∧ f.Stays g

theorem Assembly.Stays.refl (a : Assembly) : a.Stays a :=
  ⟨.refl _, .refl _, fun _ f hf => ⟨f, hf, .refl f⟩⟩

theorem Assembly.Stays.trans {a b c : Assembly} (h : a.Stays b) (h' : b.Stays c) : a.Stays c where
  vars := h.vars.trans h'.vars
  mainVars := h.mainVars.trans h'.mainVars
  funcs id f hf := by
    obtain ⟨g, hg, hfg⟩ := h.funcs id f hf
    obtain ⟨k, hk, hgk⟩ := h'.funcs id g hg
    exact ⟨k, hk, hfg.trans hgk⟩

/-! ## Declarations -/

/-- What is declared to an assembly. Variables have no address yet. -/
inductive Declaration
  | newFunc (name : String) (depth : Nat)
  | setParams (id : Nat) (params : List Ty)
  | setVariadicParams (id : Nat) (params : List Ty)
  | results (id : Nat) (vars : List Var) (fresh : ∀ v ∈ vars, v.addr = none)
  | defineVar (owner : Option Nat) (v : Var) (fresh : v.addr = none)
  | defineFunc (id : Nat)
  | endFunc (id : Nat)

/-- An assembly with the result variables that its functions were given. -/
structure Draft where
  asm : Assembly
  results : Nat → List Nat

namespace Draft

def empty : Draft := ⟨.empty, fun _ => []⟩

end Draft

namespace Declaration

/-- Declares, and gives the numbers of what is new. -/
def task : Declaration → Asm (List Nat)
  | newFunc name depth => do return [← Assembly.newFunc name depth]
  | setParams id params => do
    Assembly.setParams id params
    return []
  | setVariadicParams id params => do
    Assembly.setVariadicParams id params
    return []
  | results id vars _ => Assembly.results id vars
  | defineVar owner v _ => do return [← Assembly.defineVar owner v]
  | defineFunc id => do
    Assembly.defineFunc id
    return []
  | endFunc id => do
    Assembly.endFunc id
    return []

/-- The result variables of all functions, where those declared now have the given numbers. -/
def noted (ids : List Nat) (results : Nat → List Nat) : Declaration → Nat → List Nat
  | .results id _ _ => Function.update results id (results id ++ ids)
  | _ => results

end Declaration

namespace Draft

/-- What a declaration leaves, also if it is refused; a fault leaves nothing. -/
def apply (s : Draft) (d : Declaration) : Option Draft :=
  match d.task.exec s.asm with
  | (.ok ids, a) => some ⟨a, d.noted ids s.results⟩
  | (.error (.error _), a) => some ⟨a, s.results⟩
  | (.error (.fault _), _) => none

/-- What a sequence of declarations leaves, which goes on behind those that are refused. -/
def after (s : Draft) : List Declaration → Option Draft
  | [] => some s
  | d :: ds => (s.apply d).bind (after · ds)

end Draft

/-! ### What a declaration can do -/

/-- A descriptor changes without its frame. -/
structure FuncInfo.Turns (f g : FuncInfo) : Prop where
  depth : g.depth = f.depth
  vars : g.vars = f.vars
  numOut : g.numOut = f.numOut
  variadicity : f.variadicity = .unresolved ∨ g.variadicity = f.variadicity

theorem FuncInfo.Turns.refl (f : FuncInfo) : f.Turns f := ⟨rfl, rfl, rfl, .inr rfl⟩

theorem FuncInfo.turns_of_setVariadic {f g : FuncInfo} {variadic : Bool}
    (h : f.setVariadic variadic = .ok g) : f.Turns g := by
  unfold setVariadic at h
  generalize (if variadic then Variadicity.variadic else .fixed) = want at h
  dsimp only at h
  split at h
  case isTrue hopen =>
    cases h
    exact ⟨rfl, rfl, rfl, .inl hopen⟩
  · split at h <;> cases h
    exact .refl f

theorem FuncInfo.turns_of_setParams {f g : FuncInfo} {params : List Ty}
    (h : f.setParams params = .ok g) : f.Turns g := by
  obtain ⟨f', hf', h⟩ := bind_eq_ok h
  have hturns := turns_of_setVariadic hf'
  cases h
  exact ⟨hturns.depth, hturns.vars, hturns.numOut, hturns.variadicity⟩

theorem FuncInfo.turns_of_setVariadicParams {f g : FuncInfo} {params : List Ty}
    (h : f.setVariadicParams params = .ok g) : f.Turns g := by
  unfold setVariadicParams at h
  split at h
  · obtain ⟨f', hf', h⟩ := bind_eq_ok h
    have hturns := turns_of_setVariadic hf'
    cases h
    exact ⟨hturns.depth, hturns.vars, hturns.numOut, hturns.variadicity⟩
  · cases h

namespace Draft

open Assembly (placedAt)

variable {s s' : Draft} {id : Nat} {f g : FuncInfo}

/-- The ways in which a declaration changes variables, frames and descriptors. -/
inductive Leads (s : Draft) : Draft → Prop
  | turns {a : Assembly} (vars : a.vars = s.asm.vars) (mainVars : a.mainVars = s.asm.mainVars)
    (size : a.funcs.size = s.asm.funcs.size)
    (funcs : ∀ (id : Nat) (f : FuncInfo), s.asm.funcs[id]? = some f →
      ∃ g : FuncInfo, a.funcs[id]? = some g ∧ f.Turns g)
    (opened : ∀ id ∈ a.opened, id ∈ s.asm.opened ∨ id < s.asm.funcs.size) :
    Leads s ⟨a, s.results⟩
  | opens (name : String) (depth : Nat) :
    Leads s ⟨{ s.asm with funcs := s.asm.funcs.push (.new name depth) }, s.results⟩
  | defines (v : Var) :
    Leads s ⟨{ s.asm with
      mainVars := s.asm.mainVars.push s.asm.vars.size
      vars := s.asm.vars.push (v.placed 0 s.asm.mainVars.size) }, s.results⟩
  | definesIn {id : Nat} {f : FuncInfo} (func : s.asm.funcs[id]? = some f) (v : Var) :
    Leads s ⟨{ s.asm with
      funcs := s.asm.funcs.setIfInBounds id { f with vars := f.vars.push s.asm.vars.size }
      vars := s.asm.vars.push (v.placed f.depth f.vars.size) }, s.results⟩
  | gives {id : Nat} {f : FuncInfo} (func : s.asm.funcs[id]? = some f) (unused : f.vars = #[])
    (vs : List Var) :
    Leads s ⟨{ s.asm.put id { f with
        numOut := vs.length, vars := (List.range' s.asm.vars.size vs.length).toArray } with
      vars := s.asm.vars ++ (placedAt f.depth 0 vs).toArray },
      Function.update s.results id (s.results id ++ List.range' s.asm.vars.size vs.length)⟩

theorem Leads.same {a : Assembly} (vars : a.vars = s.asm.vars)
    (mainVars : a.mainVars = s.asm.mainVars) (funcs : a.funcs = s.asm.funcs)
    (opened : ∀ id ∈ a.opened, id ∈ s.asm.opened) : s.Leads ⟨a, s.results⟩ :=
  .turns vars mainVars (congrArg Array.size funcs) (fun _ f hf => ⟨f, funcs ▸ hf, .refl f⟩)
    fun id hid => .inl (opened id hid)

theorem Leads.refl (s : Draft) : s.Leads s := .same rfl rfl rfl fun _ h => h

theorem Leads.put {a : Assembly} (hf : s.asm.funcs[id]? = some f) (hg : f.Turns g)
    (vars : a.vars = s.asm.vars) (mainVars : a.mainVars = s.asm.mainVars)
    (funcs : a.funcs = s.asm.funcs.setIfInBounds id g)
    (opened : ∀ i ∈ a.opened, i ∈ s.asm.opened ∨ i = id) : s.Leads ⟨a, s.results⟩ :=
  .turns vars mainVars (by rw [funcs, Array.size_setIfInBounds])
    (funcs ▸ forall_setIfInBounds FuncInfo.Turns.refl hf hg)
    fun i hi => (opened i hi).imp_right fun (heq : i = id) => heq ▸ Extends.lt_of_getElem? hf

end Draft

namespace Declaration

open Asm (ensures_func)

variable {s s' : Draft} {id : Nat} {f g : FuncInfo}

/-- The functions that a declaration names. -/
def funcs : Declaration → List Nat
  | newFunc .. => []
  | setParams id _ | setVariadicParams id _ | results id _ _ | defineFunc id | endFunc id => [id]
  | defineVar owner _ _ => owner.toList

/-- From the draft the step goes on with one of these changes, also if it is refused, unless it names
a function that is not there. -/
def Goes (d : Declaration) (s : Draft) : Prop :=
  d.task.Ensures s.asm (fun ids a => s.Leads ⟨a, d.noted ids s.results⟩) fun e a =>
    (e.IsError → s.Leads ⟨a, s.results⟩) ∧
      ((∀ id ∈ d.funcs ++ s.asm.opened, id < s.asm.funcs.size) → e.IsError)

theorem lt_of_mem_funcs {d : Declaration} (hid : id ∈ d.funcs)
    (h : ∀ id ∈ d.funcs ++ s.asm.opened, id < s.asm.funcs.size) : id < s.asm.funcs.size :=
  h id (List.mem_append_left _ hid)

/-- A step that ends in an error without a change. -/
theorem unchanged {e : BuildError} {P : Prop} : ((Stop.error e).IsError → s.Leads s) ∧
    (P → (Stop.error e).IsError) :=
  ⟨fun _ => .refl s, fun _ => trivial⟩

/-- A function that is not there is a fault. -/
theorem missing {P : Prop} (hid : P → id < s.asm.funcs.size) (hnone : s.asm.funcs[id]? = none) :
    ((.fault .outOfRange : Stop BuildError).IsError → s.Leads s) ∧
      (P → (.fault .outOfRange : Stop BuildError).IsError) :=
  ⟨nofun, fun h => absurd (hid h) (Nat.not_lt.2 (Array.getElem?_eq_none_iff.1 hnone))⟩

theorem goes_of_update {d : Declaration} {change : FuncInfo → Except BuildError FuncInfo}
    (htask : d.task = do
      Assembly.updateFunc id change
      return [])
    (hnoted : ∀ ids results, d.noted ids results = results) (hid : id ∈ d.funcs)
    (h : ∀ f g, change f = .ok g → f.Turns g) : d.Goes s := by
  unfold Goes
  simp only [htask, hnoted]
  refine Task.ensures_bind.2 (Task.ensures_bind.2 (ensures_func.2
    ⟨fun f hf => ?_, fun hnone => missing (lt_of_mem_funcs hid) hnone⟩))
  refine Task.ensures_bind.2 (Task.ensures_ofExcept.2 ⟨fun g hg => ?_, fun e _ => unchanged⟩)
  exact .put hf (h f g hg) rfl rfl rfl fun _ hi => .inl hi

theorem goes_results (vs : List Var) (fresh : ∀ v ∈ vs, v.addr = none) :
    (Declaration.results id vs fresh).Goes s := by
  have hlt := lt_of_mem_funcs (s := s) (d := .results id vs fresh) List.mem_cons_self
  cases hf : s.asm.funcs[id]? with
  | none =>
    refine Task.ensures_bind.2 (ensures_func.2 ⟨fun f hf' => ?_, fun hnone => missing hlt hnone⟩)
    cases hf.symm.trans hf'
  | some f =>
    by_cases hvars : f.vars = #[]
    · unfold Goes Task.Ensures
      simp only [task]
      rw [Assembly.exec_results hf hvars fresh]
      exact .gives hf hvars vs
    · refine Task.ensures_bind.2 (ensures_func.2 ⟨fun f' hf' => ?_, fun hnone => missing hlt hnone⟩)
      cases hf.symm.trans hf'
      rw [if_pos (by simpa using hvars)]
      exact unchanged

theorem goes_defineVar (owner : Option Nat) (v : Var) (fresh : v.addr = none) :
    (Declaration.defineVar owner v fresh).Goes s := by
  cases owner with
  | none =>
    unfold Goes Task.Ensures
    simp only [task]
    rw [Task.exec_bind_ok (exec_defineGlobal fresh)]
    exact .defines v
  | some id =>
    cases hf : s.asm.funcs[id]? with
    | some f =>
      unfold Goes Task.Ensures
      simp only [task]
      rw [Task.exec_bind_ok (exec_defineLocal hf fresh)]
      exact .definesIn hf v
    | none =>
      refine Task.ensures_bind.2 (Task.ensures_bind.2 (Task.ensures_get.2 (Task.ensures_bind.2
        (Task.ensures_bind.2 (ensures_func.2 ⟨fun f hf' => ?_, fun hnone => ?_⟩)))))
      · cases hf.symm.trans hf'
      · exact missing (lt_of_mem_funcs (d := .defineVar (some id) v fresh) List.mem_cons_self) hnone

theorem goes_defineFunc : (Declaration.defineFunc id).Goes s := by
  refine Task.ensures_bind.2 (Task.ensures_bind.2 (ensures_func.2 ⟨fun f hf => ?_, fun hnone =>
    missing (lt_of_mem_funcs (d := .defineFunc id) List.mem_cons_self) hnone⟩))
  split
  · exact unchanged
  · exact Draft.Leads.put (g := { f with entry := some s.asm.code.size }) hf ⟨rfl, rfl, rfl, .inr rfl⟩
      rfl rfl rfl fun i hi => (List.mem_cons.1 hi).symm

theorem goes_endFunc : (Declaration.endFunc id).Goes s := by
  have hlt := lt_of_mem_funcs (s := s) (d := .endFunc id) List.mem_cons_self
  refine Task.ensures_bind.2 (Task.ensures_bind.2 (Task.ensures_get.2 ?_))
  split
  · exact Task.ensures_bind.2 (ensures_func.2 ⟨fun f _ => unchanged, fun hnone => missing hlt hnone⟩)
  case _ top rest hopened =>
    have hrest : ∀ i ∈ rest, i ∈ s.asm.opened := fun i hi => hopened ▸ List.mem_cons_of_mem top hi
    have hdropped : s.Leads ⟨{ s.asm with opened := rest }, s.results⟩ := .same rfl rfl rfl hrest
    have hmissing {i : Nat} (hi : i ∈ [id] ++ s.asm.opened) (hnone : s.asm.funcs[i]? = none) :=
      missing (P := ∀ i ∈ [id] ++ s.asm.opened, i < s.asm.funcs.size) (fun h => h i hi) hnone
    refine Task.ensures_bind.2 (Task.ensures_modify.2 ?_)
    split
    case isTrue htop =>
      subst htop
      refine Task.ensures_bind.2 (Task.ensures_get.2 (Task.ensures_bind.2 (ensures_func.2
        ⟨fun f hf => ?_, fun hnone => ⟨nofun, (hmissing List.mem_cons_self hnone).2⟩⟩)))
      exact Draft.Leads.put (g := { f with stop := some s.asm.code.size }) hf ⟨rfl, rfl, rfl, .inr rfl⟩
        rfl rfl rfl fun i hi => .inl (hrest i hi)
    · refine Task.ensures_bind.2 (ensures_func.2 ⟨fun f _ => ?_, fun hnone => ⟨nofun, (hmissing
        (List.mem_append_right _ (hopened ▸ List.mem_cons_self)) hnone).2⟩⟩)
      refine Task.ensures_bind.2 (ensures_func.2 ⟨fun g _ => ?_, fun hnone => ⟨nofun,
        (hmissing List.mem_cons_self hnone).2⟩⟩)
      exact ⟨fun _ => hdropped, fun _ => trivial⟩

theorem goes (d : Declaration) (s : Draft) : d.Goes s := by
  cases d with
  | newFunc name depth => exact .opens name depth
  | setParams id params =>
    exact goes_of_update rfl (fun _ _ => rfl) List.mem_cons_self fun _ _ => FuncInfo.turns_of_setParams
  | setVariadicParams id params =>
    exact goes_of_update rfl (fun _ _ => rfl) List.mem_cons_self
      fun _ _ => FuncInfo.turns_of_setVariadicParams
  | results id vs fresh => exact goes_results vs fresh
  | defineVar owner v fresh => exact goes_defineVar owner v fresh
  | defineFunc id => exact goes_defineFunc
  | endFunc id => exact goes_endFunc

end Declaration

/-! ### What all declarations keep -/

namespace Draft

variable {s s' : Draft} {id : Nat} {f g : FuncInfo}

theorem Leads.stays (h : s.Leads s') : s.asm.Stays s'.asm := by
  cases h with
  | turns vars mainVars size funcs opened =>
    refine ⟨vars ▸ .refl _, mainVars ▸ .refl _, fun id f hf => ?_⟩
    obtain ⟨g, hg, hturns⟩ := funcs id f hf
    exact ⟨g, hg, hturns.depth, hturns.vars ▸ .refl _, hturns.variadicity⟩
  | opens name depth =>
    exact ⟨.refl _, .refl _, fun id f hf => ⟨f, Extends.push _ _ id f hf, .refl f⟩⟩
  | defines v => exact ⟨.push _ _, .push _ _, fun id f hf => ⟨f, hf, .refl f⟩⟩
  | definesIn func v =>
    exact ⟨.push _ _, .refl _, forall_setIfInBounds FuncInfo.Stays.refl func ⟨rfl, .push _ _, .inr rfl⟩⟩
  | gives func unused vs =>
    refine ⟨.append _ _, .refl _, forall_setIfInBounds FuncInfo.Stays.refl func
      ⟨rfl, fun slot id hslot => ?_, .inr rfl⟩⟩
    rw [unused] at hslot
    cases hslot

theorem frame?_set_ne {a a' : Assembly} {owner : Option Nat} (hmain : a'.mainVars = a.mainVars)
    (hfuncs : a'.funcs = a.funcs.setIfInBounds id g) (h : owner ≠ some id) :
    a'.frame? owner = a.frame? owner := by
  cases owner with
  | none => exact congrArg (fun vars => some (0, vars)) hmain
  | some id' =>
    have hne : id ≠ id' := fun heq => h (heq ▸ rfl)
    rw [Assembly.frame?, Assembly.frame?, hfuncs, Array.getElem?_setIfInBounds_ne hne]

theorem frame?_set_self {a a' : Assembly} (hf : a.funcs[id]? = some f)
    (hfuncs : a'.funcs = a.funcs.setIfInBounds id g) : a'.frame? (some id) = some (g.depth, g.vars) := by
  rw [Assembly.frame?, hfuncs, Array.getElem?_setIfInBounds_self_of_lt (Extends.lt_of_getElem? hf),
    Option.map_some]

theorem frame?_func {a : Assembly} (hf : a.funcs[id]? = some f) :
    a.frame? (some id) = some (f.depth, f.vars) := by
  rw [Assembly.frame?, hf, Option.map_some]

theorem Leads.slotted (h : s.Leads s') (hs : s.asm.Slotted) : s'.asm.Slotted := by
  cases h with
  | turns vars mainVars size funcs opened =>
    refine hs.congr vars (funext fun owner => ?_)
    cases owner with
    | none => exact congrArg (fun vars => some (0, vars)) mainVars
    | some id =>
      cases hf : s.asm.funcs[id]? with
      | some f =>
        obtain ⟨g, hg, hturns⟩ := funcs id f hf
        rw [frame?_func hg, frame?_func hf, hturns.depth, hturns.vars]
      | none =>
        rw [Array.getElem?_eq_none_iff, ← size] at hf
        rw [Assembly.frame?, Assembly.frame?, Array.getElem?_eq_none hf, Array.getElem?_eq_none (size ▸ hf)]
  | opens name depth =>
    refine hs.newFrame (f := s.asm.funcs.size) rfl (?_ : _ = some (depth, #[])) ?_ fun owner howner => ?_
    · rw [frame?_func (f := .new name depth) Array.getElem?_push_size]
      rfl
    · rw [Assembly.frame?, Array.getElem?_eq_none (Nat.le_refl _), Option.map_none]
    · cases owner with
      | none => rfl
      | some id =>
        have hne : id ≠ s.asm.funcs.size := fun heq => howner (heq ▸ rfl)
        rw [Assembly.frame?, Assembly.frame?, Array.getElem?_push, if_neg hne]
  | defines v =>
    refine hs.declares (?_ : s.asm.Declares none [v] _)
    refine ⟨⟨0, s.asm.mainVars, rfl, ?_, ?_⟩, fun owner howner => ?_⟩
    · simp [Assembly.frame?]
    · simp [Assembly.placedAt]
    · cases owner with
      | none => exact absurd rfl howner
      | some id => rfl
  | @definesIn id f func v =>
    refine hs.declares (?_ : s.asm.Declares (some id) [v] _)
    refine ⟨⟨f.depth, f.vars, frame?_func func, (frame?_set_self func rfl).trans ?_, ?_⟩,
      fun owner howner => frame?_set_ne rfl rfl howner⟩
    · simp
    · simp [Assembly.placedAt]
  | @gives id f func unused vs =>
    refine hs.declares (?_ : s.asm.Declares (some id) vs _)
    refine ⟨⟨f.depth, f.vars, frame?_func func, (frame?_set_self func rfl).trans ?_, ?_⟩,
      fun owner howner => frame?_set_ne rfl rfl howner⟩
    · simp [unused]
    · simp [unused]

/-- What all declarations keep: each variable stands in one slot and has its address, the result
variables of a function are the first of its frame, and functions that are open are there. -/
structure Orderly (s : Draft) : Prop where
  slotted : s.asm.Slotted
  results : ∀ (id : Nat) (f : FuncInfo), s.asm.funcs[id]? = some f →
    f.numOut ≤ f.vars.size ∧ s.results id = f.vars.toList.take f.numOut
  unborn : ∀ id, s.asm.funcs.size ≤ id → s.results id = []
  opened : ∀ id ∈ s.asm.opened, id < s.asm.funcs.size

theorem orderly_empty : Orderly .empty where
  slotted := Assembly.slotted_empty
  results id f hf := by cases hf
  unborn _ _ := rfl
  opened _ hid := nomatch hid

/-- Where the descriptor of one function is set, the others keep their results. -/
theorem Orderly.results_set (hs : s.Orderly) {results : Nat → List Nat}
    (hself : g.numOut ≤ g.vars.size ∧ results id = g.vars.toList.take g.numOut)
    (hothers : ∀ id', id' ≠ id → results id' = s.results id') (id' : Nat) (f' : FuncInfo)
    (hf' : (s.asm.funcs.setIfInBounds id g)[id']? = some f') :
    f'.numOut ≤ f'.vars.size ∧ results id' = f'.vars.toList.take f'.numOut := by
  obtain ⟨rfl, rfl⟩ | ⟨hne, hf'⟩ := getElem?_setIfInBounds_of hf'
  · exact hself
  · rw [hothers id' (Ne.symm hne)]
    exact hs.results id' f' hf'

theorem Leads.orderly (h : s.Leads s') (hs : s.Orderly) : s'.Orderly := by
  have hslotted := h.slotted hs.slotted
  cases h with
  | turns vars mainVars size funcs opened =>
    refine ⟨hslotted, fun id g hg => ?_, fun id hid => hs.unborn id (size ▸ hid), fun id hid => ?_⟩
    · have hlt : id < s.asm.funcs.size := size ▸ Extends.lt_of_getElem? hg
      obtain ⟨g', hg', hturns⟩ := funcs id _ (Array.getElem?_eq_getElem hlt)
      cases hg.symm.trans hg'
      rw [hturns.numOut, hturns.vars]
      exact hs.results id _ (Array.getElem?_eq_getElem hlt)
    · exact (opened id hid).elim (fun h => size ▸ hs.opened id h) fun h => size ▸ h
  | opens name depth =>
    refine ⟨hslotted, fun id g hg => ?_, fun id hid => hs.unborn id ?_, fun id hid => ?_⟩
    · rw [Array.getElem?_push] at hg
      split at hg
      case isTrue hid =>
        cases hg
        exact ⟨Nat.le_refl _, hs.unborn id (Nat.le_of_eq hid.symm)⟩
      · exact hs.results id g hg
    · have hle : (s.asm.funcs.push (.new name depth)).size ≤ id := hid
      rw [Array.size_push] at hle
      exact Nat.le_of_succ_le hle
    · rw [Array.size_push]
      exact Nat.lt_succ_of_lt (hs.opened id hid)
  | defines v => exact ⟨hslotted, hs.results, hs.unborn, hs.opened⟩
  | @definesIn id f func v =>
    obtain ⟨hle, hresults⟩ := hs.results id f func
    refine ⟨hslotted, hs.results_set ⟨?_, ?_⟩ fun _ _ => rfl, fun id' hid' => hs.unborn id' ?_,
      fun id' hid' => ?_⟩
    · rw [Array.size_push]
      exact Nat.le_succ_of_le hle
    · rw [hresults, Array.toList_push, List.take_append_of_le_length (by simpa using hle)]
    · rwa [Array.size_setIfInBounds] at hid'
    · rw [Array.size_setIfInBounds]
      exact hs.opened id' hid'
  | @gives id f func unused vs =>
    have hlt := Extends.lt_of_getElem? func
    have hnone : s.results id = [] := by
      rw [(hs.results id f func).2, unused, List.take_nil]
    have hsize : (s.asm.funcs.setIfInBounds id { f with
        numOut := vs.length, vars := (List.range' s.asm.vars.size vs.length).toArray }).size =
          s.asm.funcs.size := Array.size_setIfInBounds
    refine ⟨hslotted, hs.results_set ⟨?_, ?_⟩ fun id' hne => Function.update_of_ne hne _ _,
      fun id' hid' => ?_, fun id' hid' => hsize ▸ hs.opened id' hid'⟩
    · simp
    · simp [hnone]
    · have hle : s.asm.funcs.size ≤ id' := hsize ▸ hid'
      exact (Function.update_of_ne (Nat.ne_of_gt (Nat.lt_of_lt_of_le hlt hle)) _ _).trans
        (hs.unborn id' hle)

/-! ### Histories -/

theorem leads_of_apply {d : Declaration} (h : s.apply d = some s') : s.Leads s' := by
  have hgoes := d.goes s
  unfold apply at h
  unfold Declaration.Goes Task.Ensures at hgoes
  generalize d.task.exec s.asm = r at h hgoes
  obtain ⟨(e | x) | ids, a⟩ := r <;> cases h
  · exact hgoes.1 trivial
  · exact hgoes

theorem orderly_after {ds : List Declaration} (hs : s.Orderly) (h : s.after ds = some s') :
    s'.Orderly := by
  induction ds generalizing s with
  | nil =>
    cases h
    exact hs
  | cons d ds ih =>
    obtain ⟨s₁, hstep, hrest⟩ := Option.bind_eq_some_iff.1 h
    exact ih ((leads_of_apply hstep).orderly hs) hrest

theorem stays_after {ds : List Declaration} (h : s.after ds = some s') : s.asm.Stays s'.asm := by
  induction ds generalizing s with
  | nil =>
    cases h
    exact .refl _
  | cons d ds ih =>
    obtain ⟨s₁, hstep, hrest⟩ := Option.bind_eq_some_iff.1 h
    exact (leads_of_apply hstep).stays.trans (ih hrest)

/-- Whatever is declared, in any order and also if some of it is refused: each variable stands in
exactly one slot of one frame and has the address of that slot, and the first variables of a function
are its result variables. Nothing that follows changes that. -/
theorem slotted_of_after {ds : List Declaration} {s : Draft} (h : empty.after ds = some s) :
    (∀ id < s.asm.vars.size, ∃! p : Option Nat × Nat, s.asm.Holds p.1 p.2 id) ∧
    (∀ owner depth vars, s.asm.frame? owner = some (depth, vars) → ∀ slot id,
      vars[slot]? = some id → ∃ v : Var, s.asm.vars[id]? = some v ∧
        v.addr = some ⟨depth, Assembly.narrow slot⟩) ∧
    (∀ (id : Nat) (f : FuncInfo), s.asm.funcs[id]? = some f →
      f.numOut ≤ f.vars.size ∧ s.results id = f.vars.toList.take f.numOut) ∧
    ∀ ds' s', s.after ds' = some s' → s.asm.Stays s'.asm := by
  have hs := orderly_after orderly_empty h
  refine ⟨fun id hid => ?_, hs.slotted.address, hs.results, fun ds' s' h' => stays_after h'⟩
  obtain ⟨owner, slot, hheld⟩ := hs.slotted.held id hid
  refine ⟨(owner, slot), hheld, fun p hp => ?_⟩
  obtain ⟨howner, hslot⟩ := hs.slotted.once p.1 owner p.2 slot id hp hheld
  exact Prod.ext howner hslot

/-- Two functions that are open together, the results of the first declared again in vain, and the
first ended out of turn. -/
def interleaved : List Declaration :=
  [.newFunc "f" 1, .newFunc "g" 2, .results 0 [.new (.named "r") (.basic .bool) false] (by simp [Var.new]),
    .setVariadicParams 1 [.slice .any], .defineFunc 0, .defineFunc 1,
    .defineVar none (.new (.named "x") .any false) rfl,
    .defineVar (some 0) (.new (.named "y") .any false) rfl,
    .results 0 [.new (.named "s") .any false] (by simp [Var.new]), .setParams 1 [],
    .defineVar (some 1) (.new (.named "z") .any true) rfl, .endFunc 0]

theorem interleaved_slotted : ∃ s, empty.after interleaved = some s ∧ s.results 0 = [0] ∧
    (∃! p : Option Nat × Nat, s.asm.Holds p.1 p.2 3) ∧ s.asm.Stays s.asm := by
  obtain ⟨howned, -, -, hstays⟩ := slotted_of_after (rfl : empty.after interleaved = some _)
  exact ⟨_, rfl, rfl, howned 3 (by decide), hstays [] _ rfl⟩

end Draft

end StackScript
