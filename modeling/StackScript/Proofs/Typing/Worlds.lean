import StackScript.Proofs.Running.Linking
import StackScript.Proofs.Running.Quiet
import StackScript.Proofs.Typing.Flow

/-!
# Typed worlds

A store is typed if what every place holds is of the type that may be there (`Store.Typed`). Loads find
such values, and writes and new frames keep the store typed. A world is later than another one if it is
typed and grew from it (`World.Later`). Typed host functions lead to later worlds, or stop in a way that
is allowed (`Setting.Allows`).
-/

namespace StackScript

/-! ## Failures -/

/-- The failures that are left to well-typed code. -/
inductive Cause.Permitted : Cause → Prop
  | divisionByZero : Permitted (.evaluation .divisionByZero)
  | negativeShift (n : Int) : Permitted (.evaluation (.negativeShift n))
  | nilPointer : Permitted .nilPointer
  | nilCall : Permitted .nilCall
  | stepLimit (max : Nat) : Permitted (.stepLimit max)
  | stackLimit (max : Nat) : Permitted (.stackLimit max)
  | depthLimit (max : Nat) (name : String) : Permitted (.depthLimit max name)

/-- Why something stopped, whatever functions it passed through. -/
def Stop.why : Stop RuntimeError → Stop Cause
  | .error e => .error e.cause
  | .fault f => .fault f

/-- The failures that lax code may come to besides. It may follow a pointer to a kind that no instruction
can name, and call a function for which its arguments cannot be packed. -/
inductive Cause.Lax : Cause → Prop
  | unnamed : Lax (.defect .addressOperand)
  | noParams (name : String) : Lax (.defect (.noParams name))
  | mismatch (expected : Expected) (got : Ty) : Lax (.typeMismatch expected got)

/-- What instructions of a typed program fail with by themselves. -/
def Setting.Fails (g : Setting) (c : Cause) : Prop := c.Permitted ∨ g.lax ∧ c.Lax

/-- How a typed run may stop: as its host functions do, by a failure that is left to typed code, or
where host functions called one another too deep. -/
inductive Setting.Allows (g : Setting) : Stop RuntimeError → Prop
  | host {e : Stop RuntimeError} (h : g.stops e.why) : Allows g e
  | fails {e : RuntimeError} (h : g.Fails e.cause) : Allows g (.error e)
  | nesting {i : Nat} {sig : Signature} (h : g.host i = some sig) : Allows g (.fault .outOfRange)

theorem Setting.Allows.within {g : Setting} {e : RuntimeError} (h : g.Allows (.error e))
    (name : String) : g.Allows (.error (e.within name)) := by
  cases h with
  | host h => exact .host h
  | fails h => exact .fails h

/-! ## Stores -/

/-- What every place holds is of the type that may be there, and the store grew from the one that the
run started from. -/
structure Store.Typed (g : Setting) (cells : Array Ty) (s : Store) : Prop where
  places : ∀ (p : Place) (t : Ty), g.typeAt? cells s p = some t →
    ∃ v, s.load? p = some v ∧ v.Has g cells s t
  sized : ∀ frame ∈ s.frames, frame.Sized g.out.program
  since : g.floor.Grows s
  cells : Extends g.cells cells

namespace Store.Typed

variable {g : Setting} {cells : Array Ty} {s s' : Store} {p : Place} {t : Ty} {v : Value}

/-- Only the part of the store that is no frame and no cell changes. -/
theorem of_eq (h : s.Typed g cells) (hframes : s'.frames = s.frames) (hcells : s'.cells = s.cells) :
    s'.Typed g cells := by
  have hgrows := Store.Grows.of_eq hframes hcells
  refine ⟨fun p t hp => ?_, fun frame hframe => h.sized frame (hframes ▸ hframe),
    h.since.trans hgrows, h.cells⟩
  have hload : s'.load? p = s.load? p := by cases p <;> simp only [load?, hframes, hcells]
  have htype : g.typeAt? cells s' p = g.typeAt? cells s p := by
    cases p <;> simp only [Setting.typeAt?, hframes]
  obtain ⟨v, hv, hhas⟩ := h.places p t (htype ▸ hp)
  exact ⟨v, hload.trans hv, Value.Has.mono hhas (.refl _) hgrows⟩

theorem publishing {w : World} (h : w.store.Typed g cells) (depth : Nat) :
    (w.publishing depth).store.Typed g cells := h.of_eq rfl rfl

end Store.Typed

namespace Store

variable {g : Setting} {cells : Array Ty} {s s' : Store} {p : Place} {t : Ty} {v w : Value}

/-- A write changes the place that it goes to and no other one. -/
theorem load?_store? (hs : s.store? v p = some s') (q : Place) :
    s'.load? q = if q = p then some v else s.load? q := by
  cases p with
  | cell i =>
    rw [store?] at hs
    split at hs <;> cases hs
    rename_i hlt
    cases q with
    | cell j =>
      simp only [load?, Place.cell.injEq, Array.getElem?_setIfInBounds]
      by_cases hj : i = j
      · subst hj
        simp [hlt]
      · rw [if_neg hj, if_neg (Ne.symm hj)]
    | slot f j => simp [load?]
  | slot f i =>
    rw [store?] at hs
    split at hs
    · rename_i frame hframe
      split at hs <;> cases hs
      rename_i hlt
      cases q with
      | cell j => simp [load?]
      | slot k j =>
        simp only [load?, Place.slot.injEq, Array.getElem?_modify]
        by_cases hk : f = k
        · subst hk
          rw [if_pos rfl, hframe, Option.map_some, Option.bind_some, Option.bind_some]
          simp only [Array.getElem?_setIfInBounds]
          by_cases hj : i = j
          · subst hj
            simp [hlt]
          · rw [if_neg hj, if_neg fun h => hj h.2.symm]
        · rw [if_neg hk, if_neg fun h => hk h.1.symm]
    · cases hs

/-- What can be read can be written. -/
theorem exists_store? (hp : s.load? p = some w) (v : Value) : ∃ s', s.store? v p = some s' := by
  cases p with
  | cell i => exact ⟨_, if_pos (Extends.lt_of_getElem? hp)⟩
  | slot f i =>
    obtain ⟨frame, hframe, hv⟩ := Option.bind_eq_some_iff.1 hp
    rw [store?, hframe]
    exact ⟨_, if_pos (Extends.lt_of_getElem? hv)⟩

/-- A store that grew by nothing but values has the same places. -/
theorem typeAt?_store? (hs : s.store? v p = some s') (q : Place) :
    g.typeAt? cells s' q = g.typeAt? cells s q := by
  cases q with
  | cell j => rfl
  | slot k j =>
    cases p with
    | cell i =>
      rw [store?] at hs
      split at hs <;> cases hs
      rfl
    | slot f i =>
      rw [store?] at hs
      split at hs
      · split at hs <;> cases hs
        simp only [Setting.typeAt?, Array.getElem?_modify]
        split
        · cases s.frames[k]? <;> rfl
        · rfl
      · cases hs

theorem sized_store? {program : Program} (h : ∀ frame ∈ s.frames, frame.Sized program)
    (hs : s.store? v p = some s') : ∀ frame ∈ s'.frames, frame.Sized program := by
  intro frame hframe
  cases p with
  | cell i =>
    rw [store?] at hs
    split at hs <;> cases hs
    exact h frame hframe
  | slot f i =>
    rw [store?] at hs
    split at hs
    · split at hs <;> cases hs
      obtain ⟨j, hj, rfl⟩ := Array.getElem_of_mem hframe
      rw [Array.size_modify] at hj
      have hold := h _ (Array.getElem_mem hj)
      rw [Array.getElem_modify]
      split
      · rw [Frame.Sized, Array.size_setIfInBounds]
        exact hold
      · exact hold
    · cases hs

namespace Typed

/-- A value that may be in a place is written there. -/
theorem store (h : s.Typed g cells) (hp : g.typeAt? cells s p = some t) (hv : v.Has g cells s t) :
    ∃ s', s.store? v p = some s' ∧ s'.Typed g cells := by
  obtain ⟨old, hold, -⟩ := h.places p t hp
  obtain ⟨s', hs⟩ := exists_store? hold v
  have hgrows := Grows.store hs
  refine ⟨s', hs, fun q u hq => ?_, sized_store? h.sized hs, h.since.trans hgrows, h.cells⟩
  rw [typeAt?_store? hs] at hq
  rw [load?_store? hs]
  split
  · rename_i heq
    subst heq
    cases hp.symm.trans hq
    exact ⟨v, rfl, Value.Has.mono hv (.refl _) hgrows⟩
  · obtain ⟨w, hw, hhas⟩ := h.places q u hq
    exact ⟨w, hw, Value.Has.mono hhas (.refl _) hgrows⟩

/-- A new frame of a function, or of the main body. -/
theorem push (h : s.Typed g cells) {frame : Frame}
    (hzeros : Machine.Zeros g.out.program (g.out.program.frameVars frame.func) frame.vars)
    {D : TypeNames} (hvars : ∀ (id : Nat) (d : Var), g.out.program.vars[id]? = some d → d.ty.Proper D) :
    Store.Typed g cells { s with frames := s.frames.push frame } := by
  have hgrows := Grows.push s frame
  refine ⟨fun p t hp => ?_, fun other hother => ?_, h.since.trans hgrows, h.cells⟩
  · have old (hp : g.typeAt? cells s p = some t) :
        ∃ v, Store.load? { s with frames := s.frames.push frame } p = some v ∧
          v.Has g cells { s with frames := s.frames.push frame } t := by
      obtain ⟨v, hv, hhas⟩ := h.places p t hp
      refine ⟨v, ?_, Value.Has.mono hhas (.refl _) hgrows⟩
      cases p with
      | cell i => exact hv
      | slot f i =>
        obtain ⟨fr, hfr, hv⟩ := Option.bind_eq_some_iff.1 hv
        rw [load?]
        show ((s.frames.push frame)[f]?.bind fun x => x.vars[i]?) = some v
        rw [Array.getElem?_push, if_neg (Nat.ne_of_lt (Extends.lt_of_getElem? hfr)), hfr]
        exact hv
    cases p with
    | cell i => exact old hp
    | slot f i =>
      by_cases hf : f = s.frames.size
      · subst hf
        obtain ⟨d, hd, rfl⟩ := Option.map_eq_some_iff.1 hp
        obtain ⟨fr, hfr, hd⟩ := Option.bind_eq_some_iff.1 hd
        obtain rfl : frame = fr := Option.some.inj ((Array.getElem?_push_size ..).symm.trans hfr)
        obtain ⟨id, hid, hd⟩ := Option.bind_eq_some_iff.1 hd
        obtain ⟨v, hv, d', hd', rfl⟩ := exists_getElem?_of_forall₂ hzeros (by simpa using hid)
        cases hd.symm.trans hd'
        refine ⟨.zero d.ty, ?_, Value.has_zero (hvars id d hd)⟩
        rw [load?, hfr]
        simpa using hv
      · refine old ?_
        rw [Setting.typeAt?] at hp ⊢
        have hold : (s.frames.push frame)[f]? = s.frames[f]? := by
          rw [Array.getElem?_push, if_neg hf]
        rwa [hold] at hp
  · obtain hother | rfl := Array.mem_push.1 hother
    · exact h.sized other hother
    · rw [Frame.Sized, ← Array.length_toList, ← Array.length_toList]
      exact hzeros.length_eq.symm

end Typed

end Store

/-! ## Worlds -/

/-- The second world is typed and grew from the first one, in which the same call depth was
published. -/
structure World.Later (g : Setting) (cells : Array Ty) (w : World) (cells' : Array Ty) (w' : World) :
    Prop where
  typed : w'.store.Typed g cells'
  cells : Extends cells cells'
  grows : w.store.Grows w'.store
  depth : w'.store.hostDepth = w.store.hostDepth

/-- A world that is later than another one, whatever is in its cells. -/
def World.Leads (g : Setting) (cells : Array Ty) (w w' : World) : Prop :=
  ∃ cells', w.Later g cells cells' w'

section

variable {g : Setting} {cells cells' cells'' : Array Ty} {w w' w'' : World}

theorem World.Later.refl (h : w.store.Typed g cells) : w.Later g cells cells w :=
  ⟨h, .refl _, .refl _, rfl⟩

theorem World.Later.trans (h : w.Later g cells cells' w') (h' : w'.Later g cells' cells'' w'') :
    w.Later g cells cells'' w'' :=
  ⟨h'.typed, h.cells.trans h'.cells, h.grows.trans h'.grows, h'.depth.trans h.depth⟩

/-- Only the part of the store that is no frame and no cell changes. -/
theorem World.Later.of_eq (h : w.store.Typed g cells) (hframes : w'.store.frames = w.store.frames)
    (hcells : w'.store.cells = w.store.cells) (hdepth : w'.store.hostDepth = w.store.hostDepth) :
    w.Later g cells cells w' :=
  ⟨h.of_eq hframes hcells, .refl _, .of_eq hframes hcells, hdepth⟩

/-- Values that the host gets or gives. -/
def HostTask.Types {α : Type} (g : Setting) (cells : Array Ty) (t : HostTask α) (w : World)
    (Q : Array Ty → α → World → Prop) : Prop :=
  t.Ensures w (fun a w' => ∃ cells', w.Later g cells cells' w' ∧ Q cells' a w')
    fun e w' => w.Leads g cells w' ∧ g.Allows e

/-- Calls of sound function values on arguments of their types, in worlds where a call depth is
published, give results of their types. -/
def Invoker.Typed (g : Setting) (depth : Nat) (call : Invoker) : Prop :=
  ∀ (cells : Array Ty) (f : FuncValue) (args : List Value) (w : World), w.store.Typed g cells →
    w.store.hostDepth = depth → f.Sound g w.store → AreOf g cells w.store args f.sig.params →
    HostTask.Types g cells (call f args) w fun cells' vs w' => AreOf g cells' w'.store vs f.sig.results

/-- A host function that gives results of its types, on arguments of its types, given the means to
call function values that do the same. -/
def HostBody.Typed (g : Setting) (sig : Signature) (body : HostBody) : Prop :=
  ∀ (call : Invoker) (cells : Array Ty) (args : List Value) (w : World),
    call.Typed g w.store.hostDepth → w.store.Typed g cells → AreOf g cells w.store args sig.params →
    HostTask.Types g cells (body call args) w fun cells' vs w' => AreOf g cells' w'.store vs sig.results

/-- What the host has to offer is as it is declared. -/
structure Natives.Typed (n : Natives) (g : Setting) : Prop where
  bodies : ∀ (i : Nat) (sig : Signature), g.host i = some sig →
    ∃ body, n.bodies[i]? = some body ∧ body.Typed g sig
  funcs : ∀ x ∈ n.funcs, x.func.Sound g g.floor
  funcvs : ∀ x ∈ n.funcvs, x.func.Sound g g.floor
  vars : ∀ x ∈ n.vars, g.typeAt? g.cells g.floor x.cell = some x.ty

end

end StackScript
