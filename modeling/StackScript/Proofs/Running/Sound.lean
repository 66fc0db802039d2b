import StackScript.Machine.Exec
import StackScript.Proofs.Running.Linking
import StackScript.Proofs.Running.Operators

/-!
# Nothing dangles

Values refer by number to cells, frames, functions and host functions. `Value.Within x v` says that
all those are there, where `x` counts how many there are; a store is sound if its values are within
its own extent, and a machine if its program's tables, frames and constants are. Stores only grow, so
what is within an earlier extent is within a later one.
-/

namespace StackScript

/-- How much there is of what values refer to. -/
structure Extent where
  cells : Nat
  frames : Nat
  funcs : Nat
  hosts : Nat

namespace Extent

/-- Nothing is lost from one extent to another; functions never come or go. -/
structure Grows (x y : Extent) : Prop where
  cells : x.cells ≤ y.cells
  frames : x.frames ≤ y.frames
  funcs : x.funcs = y.funcs
  hosts : x.hosts = y.hosts

variable {x y z : Extent}

theorem Grows.refl (x : Extent) : x.Grows x := ⟨Nat.le_refl _, Nat.le_refl _, rfl, rfl⟩

theorem Grows.trans (h : x.Grows y) (h' : y.Grows z) : x.Grows z :=
  ⟨Nat.le_trans h.cells h'.cells, Nat.le_trans h.frames h'.frames, h.funcs.trans h'.funcs,
    h.hosts.trans h'.hosts⟩

end Extent

/-! ## Values -/

def Place.Within (x : Extent) : Place → Prop
  | .cell i => i < x.cells
  | .slot f _ => f < x.frames

structure Closure.Within (x : Extent) (c : Closure) : Prop where
  func : c.func < x.funcs
  parent : c.parent < x.frames

def FuncValue.Within (x : Extent) (f : FuncValue) : Prop :=
  match f.callee with
  | .host i => i < x.hosts
  | .script c => c.Within x

namespace Value

mutual

/-- All that the value refers to is there. -/
def Within (x : Extent) : Value → Prop
  | scalar _ => True
  | slice _ _ vs | struct _ _ vs => AllWithin x vs
  | ptr _ _ p => p.Within x
  | closure c => c.Within x
  | func f => f.Within x
termination_by structural v => v

def AllWithin (x : Extent) : List Value → Prop
  | [] => True
  | v :: vs => v.Within x ∧ AllWithin x vs
termination_by structural vs => vs

end

variable {x y : Extent}

theorem allWithin_iff {vs : List Value} : AllWithin x vs ↔ ∀ v ∈ vs, v.Within x := by
  induction vs with
  | nil => simp [AllWithin]
  | cons v vs ih => simp [AllWithin, ih]

theorem within_closure_mono {c : Closure} (h : c.Within x) (hxy : x.Grows y) : c.Within y :=
  ⟨hxy.funcs ▸ h.func, Nat.lt_of_lt_of_le h.parent hxy.frames⟩

theorem within_place_mono {p : Place} (h : p.Within x) (hxy : x.Grows y) : p.Within y := by
  cases p with
  | cell i => exact Nat.lt_of_lt_of_le h hxy.cells
  | slot f i => exact Nat.lt_of_lt_of_le h hxy.frames

theorem within_func_mono {f : FuncValue} (h : f.Within x) (hxy : x.Grows y) : f.Within y := by
  obtain ⟨sig, _ | c⟩ := f
  · exact Nat.lt_of_lt_of_eq h hxy.hosts
  · exact within_closure_mono h hxy

mutual

theorem Within.mono : ∀ {v : Value}, v.Within x → x.Grows y → v.Within y
  | scalar _, _, _ => trivial
  | slice _ _ _, h, hxy => AllWithin.mono h hxy
  | struct _ _ _, h, hxy => AllWithin.mono h hxy
  | ptr _ _ _, h, hxy => within_place_mono h hxy
  | closure _, h, hxy => within_closure_mono h hxy
  | func _, h, hxy => within_func_mono h hxy
termination_by structural v => v

theorem AllWithin.mono : ∀ {vs : List Value}, AllWithin x vs → x.Grows y → AllWithin y vs
  | [], _, _ => trivial
  | _ :: _, h, hxy => ⟨h.1.mono hxy, AllWithin.mono h.2 hxy⟩
termination_by structural vs => vs

end

theorem IsScalar.within {v : Value} (h : v.IsScalar) : v.Within x := by
  obtain ⟨s, rfl⟩ := h
  trivial

mutual

/-- Zero values refer to nothing. -/
theorem within_zeroAs (whole : Ty) : ∀ t : Ty, (zeroAs whole t).Within x
  | .basic _ | .any | .slice _ | .ptr _ | .func _ => trivial
  | .struct fs => within_zeroFields fs
  | .named _ _ t => within_zeroAs whole t
termination_by structural t => t

theorem within_zeroField : ∀ f : Field, (zeroField f).Within x
  | ⟨_, t⟩ => within_zeroAs t t
termination_by structural f => f

theorem within_zeroFields : ∀ fs : List Field, AllWithin x (zeroFields fs)
  | [] => trivial
  | f :: fs => ⟨within_zeroField f, within_zeroFields fs⟩
termination_by structural fs => fs

end

theorem within_zero (t : Ty) : (zero t).Within x := within_zeroAs t t

end Value

/-! ## Programs -/

/-- The parts of the program refer to parts that are there, and functions end within the code. -/
structure Program.Sound (p : Program) : Prop where
  tables : ∀ (variadic : Bool) (place id : Nat), (p.table variadic)[place]? = some id →
    id < p.funcs.size
  vars : ∀ f ∈ p.funcs, ∀ id ∈ f.vars, id < p.vars.size
  results : ∀ f ∈ p.funcs, f.numOut ≤ f.vars.size
  stops : ∀ f ∈ p.funcs, ∀ stop ∈ f.stop, stop ≤ p.code.size
  mainVars : ∀ id ∈ p.mainVars, id < p.vars.size
  mainEnd : p.mainEnd ≤ p.code.size

namespace Program

variable {p : Program} {id : Nat}

theorem func_of_lt (h : id < p.funcs.size) : p.func id = .ok p.funcs[id] := by
  rw [func, Array.getElem?_eq_getElem h]

theorem var_of_lt (h : id < p.vars.size) : p.var id = .ok p.vars[id] := by
  rw [var, Array.getElem?_eq_getElem h]

/-- Functions of a sound program have signatures. -/
theorem Sound.signature (h : p.Sound) (hid : id < p.funcs.size) :
    ∃ sig, p.signature id = .ok sig := by
  have hmem := Array.getElem_mem hid
  unfold Program.signature
  rw [func_of_lt hid]
  simp only [bind, Except.bind]
  split
  · exact ⟨_, rfl⟩
  · rw [if_neg (Nat.not_lt.2 (h.results _ hmem))]
    have hvars : ∀ i ∈ p.funcs[id].vars.toList.take p.funcs[id].numOut, i < p.vars.size :=
      fun i hi => h.vars _ hmem i (Array.mem_toList_iff.1 (List.mem_of_mem_take hi))
    obtain ⟨vs, hvs⟩ : ∃ vs, (p.funcs[id].vars.toList.take p.funcs[id].numOut).mapM p.var =
        .ok vs := by
      generalize p.funcs[id].vars.toList.take p.funcs[id].numOut = is at hvars
      induction is with
      | nil => exact ⟨[], rfl⟩
      | cons i is ih =>
        obtain ⟨vs, hvs⟩ := ih fun j hj => hvars j (List.mem_cons_of_mem i hj)
        have hlt := hvars i List.mem_cons_self
        exact ⟨p.vars[i] :: vs, by
          rw [List.mapM_cons, var_of_lt hlt, hvs]
          rfl⟩
    simp only [pure, Except.pure]
    rw [hvs]
    exact ⟨_, rfl⟩

end Program

/-! ## Stores -/

structure Frame.Within (x : Extent) (f : Frame) : Prop where
  func : ∀ id ∈ f.func, id < x.funcs
  parent : ∀ q ∈ f.parent, q < x.frames
  vars : ∀ v ∈ f.vars, v.Within x

/-- What values refer to while a machine runs. -/
def Machine.extent (m : Machine) (s : Store) : Extent :=
  ⟨s.cells.size, s.frames.size, m.program.funcs.size, m.natives.bodies.size⟩

/-- All that values of the store refer to is there, and all of `floor`. -/
structure Store.Sound (m : Machine) (floor : Extent) (s : Store) : Prop where
  cells : ∀ v ∈ s.cells, v.Within (m.extent s)
  frames : ∀ f ∈ s.frames, f.Within (m.extent s)
  floor : floor.Grows (m.extent s)

/-- No fault. -/
def Stop.IsError {ε : Type} : Stop ε → Prop
  | .error _ => True
  | .fault _ => False

/-- From a sound store the task leads to a sound one that lost nothing, with a result of `Q`, or to
an error. -/
def HostTask.Safe {α : Type} (m : Machine) (floor : Extent) (t : HostTask α) (w : World)
    (Q : α → World → Prop) : Prop :=
  t.Ensures w (fun a w' => w'.store.Sound m floor ∧ (m.extent w.store).Grows (m.extent w'.store) ∧
    Q a w') fun e _ => e.IsError

/-- A host function that is safe whatever calls of function values do. -/
def HostBody.Tame (m : Machine) (floor : Extent) (body : HostBody) : Prop :=
  ∀ (call : Invoker) (args : List Value) (w : World), w.store.Sound m floor →
    (∀ v ∈ args, v.Within (m.extent w.store)) →
    HostTask.Safe m floor (body call args) w fun vs w' => ∀ v ∈ vs, v.Within (m.extent w'.store)

/-- All that the parts of the machine refer to is there from the extent `floor` on, and its host
functions are tame. -/
structure Machine.Sound (m : Machine) (floor : Extent) : Prop where
  program : m.program.Sound
  frames : m.frames.size = m.program.funcs.size
  zeros : ∀ vs ∈ m.frames, ∀ v ∈ vs, ∀ x, v.Within x
  globals : ∀ v ∈ m.globals, ∀ x, v.Within x
  consts : ∀ v ∈ m.program.consts, v.Within floor
  vars : ∀ v ∈ m.natives.vars, v.cell.Within floor
  funcs : ∀ f ∈ m.natives.funcs, f.func.Within floor
  funcvs : ∀ f ∈ m.natives.funcvs, f.func.Within floor
  bodies : ∀ body ∈ m.natives.bodies, body.Tame m floor

variable {m : Machine} {floor x : Extent} {s : Store}

theorem Frame.Within.mono {f : Frame} (h : f.Within x) {y : Extent} (hxy : x.Grows y) :
    f.Within y where
  func id hid := hxy.funcs ▸ h.func id hid
  parent q hq := Nat.lt_of_lt_of_le (h.parent q hq) hxy.frames
  vars v hv := (h.vars v hv).mono hxy

namespace Store.Sound

/-- What is published is no part of what values refer to. -/
theorem publishing {w : World} (h : w.store.Sound m floor) (depth : Nat) :
    (w.publishing depth).store.Sound m floor := ⟨h.cells, h.frames, h.floor⟩

theorem load (h : s.Sound m floor) {p : Place} {v : Value} (hv : s.load? p = some v) :
    v.Within (m.extent s) := by
  cases p with
  | cell i => exact h.cells v (Array.mem_of_getElem? hv)
  | slot f i =>
    obtain ⟨frame, hframe, hv⟩ := Option.bind_eq_some_iff.1 hv
    exact (h.frames frame (Array.mem_of_getElem? hframe)).vars v (Array.mem_of_getElem? hv)

/-- Another value in a place keeps the extent of the store. -/
theorem store (h : s.Sound m floor) {s' : Store} {v : Value} {p : Place}
    (hs : s.store? v p = some s') (hv : v.Within (m.extent s)) :
    m.extent s' = m.extent s ∧ s'.Sound m floor := by
  have replaced {vs : Array Value} (hvs : ∀ u ∈ vs, u.Within (m.extent s)) (i : Nat) :
      ∀ u ∈ vs.setIfInBounds i v, u.Within (m.extent s) := fun u hu => by
    obtain hu | rfl := Array.mem_or_eq_of_mem_setIfInBounds hu
    · exact hvs u hu
    · exact hv
  cases p with
  | cell i =>
    rw [Store.store?] at hs
    split at hs <;> cases hs
    have hextent : m.extent { s with cells := s.cells.setIfInBounds i v } = m.extent s := by
      simp [Machine.extent]
    refine ⟨hextent, ?_, ?_, ?_⟩ <;> rw [hextent]
    · exact replaced h.cells i
    · exact h.frames
    · exact h.floor
  | slot f i =>
    rw [Store.store?] at hs
    split at hs
    · split at hs <;> cases hs
      refine (?_ : _ ∧ _)
      generalize hframes : s.frames.modify f (fun x => { x with vars := x.vars.setIfInBounds i v }) =
        frames
      have hextent : m.extent { s with frames } = m.extent s := by
        simp [Machine.extent, ← hframes]
      refine ⟨hextent, ?_, ?_, ?_⟩ <;> rw [hextent]
      · exact h.cells
      · intro g hg
        obtain ⟨j, hj, rfl⟩ := Array.getElem_of_mem hg
        subst hframes
        rw [Array.size_modify] at hj
        have hold := h.frames _ (Array.getElem_mem hj)
        rw [Array.getElem_modify]
        split
        · exact { hold with vars := replaced hold.vars i }
        · exact hold
      · exact h.floor
    · cases hs

theorem root_le (s : Store) (f : Nat) : s.root f ≤ f := by
  induction f using Nat.strongRecOn with
  | ind f ih =>
    rw [Store.root]
    split
    · split
      · rename_i p _ hp
        exact Nat.le_trans (ih p hp) (Nat.le_of_lt hp)
      · exact Nat.le_refl f
    · exact Nat.le_refl f

theorem ancestor_lt (h : s.Sound m floor) {n f g : Nat} (hf : f < s.frames.size)
    (hg : s.ancestor? f n = some g) : g < s.frames.size := by
  induction n generalizing f with
  | zero =>
    cases hg
    exact hf
  | succ n ih =>
    obtain ⟨q, hq, hg⟩ := Option.bind_eq_some_iff.1 hg
    obtain ⟨frame, hframe, hq⟩ := Option.bind_eq_some_iff.1 hq
    exact ih ((h.frames frame (Array.mem_of_getElem? hframe)).parent q hq) hg

/-- A new frame for what is there. -/
theorem newFrame (h : s.Sound m floor) {f : Frame} (hf : f.Within (m.extent s)) :
    (s.newFrame f).2.Sound m floor ∧ (m.extent s).Grows (m.extent (s.newFrame f).2) ∧
      (s.newFrame f).1 < (s.newFrame f).2.frames.size := by
  have hgrows : (m.extent s).Grows (m.extent (s.newFrame f).2) :=
    ⟨Nat.le_refl _, by simp [Machine.extent, Store.newFrame], rfl, rfl⟩
  refine ⟨⟨fun v hv => (h.cells v hv).mono hgrows, fun g hg => ?_, h.floor.trans hgrows⟩, hgrows, ?_⟩
  · obtain hg | rfl := Array.mem_push.1 hg
    · exact (h.frames g hg).mono hgrows
    · exact hf.mono hgrows
  · simp [Store.newFrame]

end Store.Sound

end StackScript
