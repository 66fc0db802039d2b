import StackScript.Proofs.Translation.Scalars

/-!
# Steps that add code

Each step adds one word to the assembly, or fills one slot. `Tidy` is what all of them keep: the
reserved slots are those that the entries of the shadow stack keep, in the same order, and words
that wait for the place of a function lie apart from them.
-/

namespace StackScript

/-! ## The invariant of code and slots -/

/-- An entry that goes with code: a constant keeps a slot just as long as its kind is open. -/
inductive Inferred.Lies : Inferred → Prop
  | slot {c : Constant} {offset : Nat} (h : c.operandKind.isBound = false) :
    Lies (.const c (.reserved offset))
  | emitted {v : Value} (h : v.IsScalar) : Lies (.const (.bound v) .emitted)
  | value (t : Ty) : Lies (.value t)
  | results (ts : List Ty) : Lies (.results ts)
  | package (path name : String) : Lies (.package path name)

namespace CompileState

/-- Slots and references of the code are in order, and the pool holds scalars. -/
structure Tidy (s : CompileState) : Prop where
  reserved : s.asm.reserved = s.shadow.filterMap Inferred.slot?
  slot_lt : ∀ offset ∈ s.asm.reserved, offset < s.asm.code.size
  slot_nodup : s.asm.reserved.Nodup
  ref_lt : ∀ r ∈ s.asm.refs, r.1 < s.asm.code.size ∧ r.2 < s.asm.funcs.size
  ref_free : ∀ r ∈ s.asm.refs, r.1 ∉ s.asm.reserved
  ref_nodup : (s.asm.refs.map (·.1)).Nodup
  entries : ∀ e ∈ s.shadow, e.Lies
  scalars : AllScalar s.asm.consts

/-- Two states differ in code, constants and the shadow stack alone. -/
structure SameDecls (s s' : CompileState) : Prop where
  funcs : s'.asm.funcs = s.asm.funcs
  vars : s'.asm.vars = s.asm.vars
  mainVars : s'.asm.mainVars = s.asm.mainVars
  opened : s'.asm.opened = s.asm.opened
  literals : s'.literals = s.literals
  queue : s'.queue = s.queue
  names : s'.names = s.names
  body : s'.body = s.body

theorem SameDecls.refl (s : CompileState) : SameDecls s s :=
  ⟨rfl, rfl, rfl, rfl, rfl, rfl, rfl, rfl⟩

theorem SameDecls.trans {s s' s'' : CompileState} (h : SameDecls s s') (h' : SameDecls s' s'') :
    SameDecls s s'' :=
  ⟨h'.funcs.trans h.funcs, h'.vars.trans h.vars, h'.mainVars.trans h.mainVars,
    h'.opened.trans h.opened, h'.literals.trans h.literals, h'.queue.trans h.queue,
    h'.names.trans h.names, h'.body.trans h.body⟩

/-! ## The states after a step -/

/-- A word at the end of the code, with the pool it may refer to. -/
def withWord (s : CompileState) (w : Word) (consts : Array Value) : CompileState :=
  { s with asm := { s.asm with code := s.asm.code.push w, consts } }

/-- A word that refers to a function. -/
def withRef (s : CompileState) (w : Word) (id : Nat) : CompileState :=
  { s with asm := { s.asm with
    code := s.asm.code.push w, refs := (s.asm.code.size, id) :: s.asm.refs } }

/-- An empty slot for a constant. -/
def withSlot (s : CompileState) (w : Word) (c : Constant) : CompileState :=
  { s with
    asm := { s.asm with
      code := s.asm.code.push w, reserved := s.asm.code.size :: s.asm.reserved }
    shadow := .const c (.reserved s.asm.code.size) :: s.shadow }

/-- A slot that has been filled. -/
def withFilled (s : CompileState) (offset : Nat) (w : Word) (consts : Array Value) :
    CompileState :=
  { s with asm := { s.asm with
    reserved := s.asm.reserved.erase offset, code := s.asm.code.setIfInBounds offset w, consts } }

/-- Another shadow stack. -/
def withShadow (s : CompileState) (shadow : Shadow) : CompileState := { s with shadow }

end CompileState

open CompileState

variable {L : Layout} {s s' : CompileState} {w : Word} {consts : Array Value}

/-! ## Words -/

theorem sameDecls_withWord : SameDecls s (s.withWord w consts) :=
  ⟨rfl, rfl, rfl, rfl, rfl, rfl, rfl, rfl⟩

theorem sameDecls_withRef {id : Nat} : SameDecls s (s.withRef w id) :=
  ⟨rfl, rfl, rfl, rfl, rfl, rfl, rfl, rfl⟩

theorem sameDecls_withSlot {c : Constant} : SameDecls s (s.withSlot w c) :=
  ⟨rfl, rfl, rfl, rfl, rfl, rfl, rfl, rfl⟩

theorem sameDecls_withShadow {shadow : Shadow} : SameDecls s (s.withShadow shadow) :=
  ⟨rfl, rfl, rfl, rfl, rfl, rfl, rfl, rfl⟩

/-- What a slot was filled with stays there when code is added behind it. -/
theorem Assembly.Filled.extend {a a' : Assembly} {offset : Nat} {c : Constant}
    (h : a.Filled offset c) (hcode : Extends a.code a'.code) (hconsts : Extends a.consts a'.consts)
    (hreserved : offset ∈ a'.reserved → offset ∈ a.reserved)
    (hrefs : ∀ id, (offset, id) ∈ a'.refs → (offset, id) ∈ a.refs) : a'.Filled offset c := by
  obtain ⟨w, i, v, hw, hi, hv, hc⟩ := h.word
  exact
    { free := fun hr => h.free (hreserved hr)
      noRef := fun id hr => h.noRef id (hrefs id hr)
      word := ⟨w, i, v, hcode _ _ hw, hi, Instr.pushed?_of_extends hconsts hv, hc⟩ }

theorem Assembly.Filled.lt {a : Assembly} {offset : Nat} {c : Constant} (h : a.Filled offset c) :
    offset < a.code.size := by
  obtain ⟨w, _, _, hw, _⟩ := h.word
  exact Extends.lt_of_getElem? hw

theorem grows_withWord (hconsts : Extends s.asm.consts consts) : Grows s (s.withWord w consts) :=
  { Grows.refl s with
    size := by simp [withWord]
    code := fun _ _ h _ => Extends.push _ _ _ _ h
    refCode := fun _ _ _ _ h => Extends.push _ _ _ _ h
    consts := hconsts
    slots := fun offset c h => h.imp id fun h =>
      h.extend (Extends.push _ _) hconsts id fun _ => id }

theorem tidy_withWord (h : s.Tidy) (hconsts : AllScalar consts) : (s.withWord w consts).Tidy :=
  { h with
    scalars := hconsts
    slot_lt := fun offset ho => by
      have := h.slot_lt offset ho
      simp only [withWord, Array.size_push]
      omega
    ref_lt := fun r hr => by
      have := h.ref_lt r hr
      simp only [withWord, Array.size_push]
      omega }

theorem emitted_withWord {i : Instr} (ht : s.Tidy) (hw : w.decode? = some i) :
    Emitted L s (s.withWord w consts) fun _ is => is = [i] := by
  intro o ho
  refine ⟨[i], by simp [withWord], ⟨?_, trivial⟩, rfl⟩
  rw [Program.instr?, ho.code s.asm.code.size w]
  · exact hw
  · simp [withWord]
  · exact fun hr => Nat.lt_irrefl _ (ht.slot_lt _ hr)
  · exact fun id hr => Nat.lt_irrefl _ (ht.ref_lt _ hr).1

/-! ## References -/

theorem grows_withRef {id : Nat} : Grows s (s.withRef w id) :=
  { Grows.refl s with
    size := by simp [withRef]
    code := fun _ _ h _ => Extends.push _ _ _ _ h
    refCode := fun _ _ _ _ h => Extends.push _ _ _ _ h
    refs := fun r hr => List.mem_cons_of_mem _ hr
    oldRefs := fun r hr hlt => by
      obtain rfl | hr := List.mem_cons.1 hr
      · exact absurd hlt (Nat.lt_irrefl _)
      · exact hr
    slots := fun offset c h => h.imp (fun h => h) fun h =>
      h.extend (Extends.push _ _) (Extends.refl _) (fun hr => hr) fun id' hr => by
        obtain heq | hr := List.mem_cons.1 hr
        · exact absurd h.lt (by rw [(Prod.mk.inj heq).1]; exact Nat.lt_irrefl _)
        · exact hr }

theorem tidy_withRef {id : Nat} (h : s.Tidy) (hid : id < s.asm.funcs.size) :
    (s.withRef w id).Tidy :=
  { h with
    slot_lt := fun offset ho => by
      have := h.slot_lt offset ho
      simp only [withRef, Array.size_push]
      omega
    ref_lt := fun r hr => by
      simp only [withRef, Array.size_push]
      obtain rfl | hr := List.mem_cons.1 hr
      · exact ⟨Nat.lt_succ_self _, hid⟩
      · have := h.ref_lt r hr
        omega
    ref_free := fun r hr hres => by
      obtain rfl | hr := List.mem_cons.1 hr
      · exact Nat.lt_irrefl _ (h.slot_lt _ hres)
      · exact h.ref_free r hr hres
    ref_nodup := by
      simp only [withRef, List.map_cons, List.nodup_cons, List.mem_map, not_exists, not_and]
      refine ⟨fun r hr heq => ?_, h.ref_nodup⟩
      exact Nat.lt_irrefl _ (heq ▸ (h.ref_lt r hr).1) }

/-- A word that refers to a function is pointed to its place. -/
theorem emitted_withRef {id : Nat} {R : Output → List Instr → Prop}
    (hw : ∀ o f place w', Completes L (s.withRef w id) o → o.program.funcs[id]? = some f →
      o.program.At id f.isVariadic place → place < Word.closureRange →
      Assembly.pointTo f place w = .ok w' → ∃ i, w'.decode? = some i ∧ R o [i]) :
    Emitted L s (s.withRef w id) R := by
  intro o ho
  obtain ⟨f, place, w', hf, hplace, hlt, hpoint, hcode⟩ :=
    ho.refs s.asm.code.size id w (List.mem_cons_self ..) (by simp [withRef])
  obtain ⟨i, hi, hr⟩ :=
    hw o f place w' ho hf ⟨⟨f, hf, rfl⟩, hplace⟩ (Nat.lt_of_lt_of_le hlt ho.small.funcs) hpoint
  refine ⟨[i], by simp [withRef], ⟨?_, trivial⟩, hr⟩
  rw [Program.instr?, hcode]
  exact hi

/-! ## Slots -/

theorem grows_withSlot {c : Constant} : Grows s (s.withSlot w c) :=
  { Grows.refl s with
    size := by simp [withSlot]
    code := fun _ _ h _ => Extends.push _ _ _ _ h
    refCode := fun _ _ _ _ h => Extends.push _ _ _ _ h
    reserved := fun offset hr hlt => by
      obtain rfl | hr := List.mem_cons.1 hr
      · exact absurd hlt (Nat.lt_irrefl _)
      · exact hr
    slots := fun offset c' h => h.imp (List.mem_cons_of_mem _) fun h =>
      h.extend (Extends.push _ _) (Extends.refl _) (fun hr => by
        obtain rfl | hr := List.mem_cons.1 hr
        · exact absurd h.lt (Nat.lt_irrefl _)
        · exact hr) fun _ hr => hr }

theorem tidy_withSlot {c : Constant} (h : s.Tidy) (hc : c.operandKind.isBound = false) :
    (s.withSlot w c).Tidy where
  reserved := by
    simp only [withSlot, List.filterMap_cons, Inferred.slot?]
    rw [h.reserved]
  slot_lt := fun offset ho => by
    simp only [withSlot, Array.size_push]
    obtain rfl | ho := List.mem_cons.1 ho
    · exact Nat.lt_succ_self _
    · have := h.slot_lt offset ho
      omega
  slot_nodup := by
    simp only [withSlot, List.nodup_cons]
    exact ⟨fun hr => Nat.lt_irrefl _ (h.slot_lt _ hr), h.slot_nodup⟩
  ref_lt := fun r hr => by
    have := h.ref_lt r hr
    simp only [withSlot, Array.size_push]
    omega
  ref_free := fun r hr hres => by
    obtain heq | hres := List.mem_cons.1 hres
    · exact Nat.lt_irrefl _ (heq ▸ (h.ref_lt r hr).1)
    · exact h.ref_free r hr hres
  ref_nodup := h.ref_nodup
  entries := by
    simp only [withSlot, List.mem_cons, forall_eq_or_imp]
    exact ⟨.slot hc, h.entries⟩
  scalars := h.scalars

/-- A slot pushes the constant that it is reserved for. -/
theorem emitted_withSlot {c : Constant} :
    Emitted L s (s.withSlot w c) fun o is => ∃ i v, is = [i] ∧
      o.program.instr? s.asm.code.size = some i ∧ i.pushed? o.program.consts = some v ∧
      c.Yields v := by
  intro o ho
  obtain ⟨i, v, hi, hv, hc⟩ := ho.slots s.asm.code.size c (List.mem_cons_self ..)
  exact ⟨[i], by simp [withSlot], ⟨hi, trivial⟩, i, v, rfl, hi, hv, hc⟩

/-! ## The shadow stack -/

theorem grows_withShadow {shadow : Shadow}
    (h : ∀ c offset, .const c (.reserved offset) ∈ s.shadow →
      .const c (.reserved offset) ∈ shadow) : Grows s (s.withShadow shadow) :=
  { Grows.refl s with slots := fun _ _ hs => hs.imp (h _ _) id }

theorem tidy_withShadow {shadow : Shadow} (ht : s.Tidy)
    (h : shadow.filterMap Inferred.slot? = s.shadow.filterMap Inferred.slot?)
    (hlies : ∀ e ∈ shadow, e.Lies) : (s.withShadow shadow).Tidy :=
  { ht with
    reserved := ht.reserved.trans h.symm
    entries := hlies }

/-- Entries without slots come and go. -/
theorem grows_push {e : Inferred} : Grows s (s.withShadow (e :: s.shadow)) :=
  grows_withShadow fun _ _ h => List.mem_cons_of_mem _ h

theorem tidy_push {e : Inferred} (ht : s.Tidy) (he : e.Lies) (hslot : e.slot? = none) :
    (s.withShadow (e :: s.shadow)).Tidy := by
  refine tidy_withShadow ht (by simp [hslot]) fun e' he' => ?_
  obtain rfl | he' := List.mem_cons.1 he'
  · exact he
  · exact ht.entries e' he'

theorem mem_of_slot?_eq_none {es rest : Shadow} (hes : ∀ e ∈ es, e.slot? = none) {c : Constant}
    {offset : Nat} (h : .const c (.reserved offset) ∈ es ++ rest) :
    .const c (.reserved offset) ∈ rest := by
  obtain h | h := List.mem_append.1 h
  · cases hes _ h
  · exact h

theorem filterMap_slot?_eq_nil {es : Shadow} (hes : ∀ e ∈ es, e.slot? = none) :
    es.filterMap Inferred.slot? = [] := by
  simpa [List.filterMap_eq_nil_iff] using hes

/-- Entries without slots on top are replaced by others. -/
theorem grows_replace {es es' rest : Shadow} (hs : s.shadow = es ++ rest)
    (hes : ∀ e ∈ es, e.slot? = none) : Grows s (s.withShadow (es' ++ rest)) :=
  grows_withShadow fun c offset h => by
    rw [hs] at h
    exact List.mem_append_right _ (mem_of_slot?_eq_none hes h)

theorem tidy_replace {es es' rest : Shadow} (ht : s.Tidy) (hs : s.shadow = es ++ rest)
    (hes : ∀ e ∈ es, e.slot? = none) (hes' : ∀ e ∈ es', e.slot? = none ∧ e.Lies) :
    (s.withShadow (es' ++ rest)).Tidy := by
  refine tidy_withShadow ht ?_ fun e he => ?_
  · rw [hs, List.filterMap_append, List.filterMap_append, filterMap_slot?_eq_nil hes,
      filterMap_slot?_eq_nil fun e he => (hes' e he).1]
  · obtain he | he := List.mem_append.1 he
    · exact (hes' e he).2
    · exact ht.entries e (hs ▸ List.mem_append_right _ he)

end StackScript
