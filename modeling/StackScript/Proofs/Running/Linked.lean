import StackScript.Proofs.Running.Lineage
import StackScript.Proofs.Running.Limits
import StackScript.Proofs.Running.Safe

/-!
# Closures stay with their frames

Closures and pointers are made by the machine alone: a closure names a frame of the function around
its own, and a pointer a place that is there (`Value.Linked`). From such a store and stack every
instruction of a compiled program leads to another one, and no error tells of a variable that is not
where its address says (`Run.Links`). Host code may keep closures, pass them on and call them, but
makes none (`HostBody.Faithful`).
-/

namespace StackScript

/-! ## Values -/

/-- The frame that a closure was made in belongs to the functions around its own. -/
def Closure.Nested (o : Output) (s : Store) (c : Closure) : Prop :=
  s.Lineage c.parent (o.nest c.func).tail

def FuncValue.Linked (o : Output) (s : Store) (f : FuncValue) : Prop :=
  match f.callee with
  | .host _ => True
  | .script c => c.Nested o s

namespace Value

mutual

/-- The closures in the value are nested, and its pointers point to places that are there. -/
def Linked (o : Output) (s : Store) : Value → Prop
  | scalar _ => True
  | slice _ _ vs | struct _ _ vs => AllLinked o s vs
  | ptr _ _ p => (s.load? p).isSome
  | closure c => c.Nested o s
  | func f => f.Linked o s
termination_by structural v => v

def AllLinked (o : Output) (s : Store) : List Value → Prop
  | [] => True
  | v :: vs => v.Linked o s ∧ AllLinked o s vs
termination_by structural vs => vs

end

variable {o : Output} {s s' : Store}

theorem allLinked_iff {vs : List Value} : AllLinked o s vs ↔ ∀ v ∈ vs, v.Linked o s := by
  induction vs with
  | nil => simp [AllLinked]
  | cons v vs ih => simp [AllLinked, ih]

theorem linked_func_mono {f : FuncValue} (h : f.Linked o s) (hs : s.Grows s') : f.Linked o s' := by
  obtain ⟨sig, _ | c⟩ := f
  · trivial
  · exact Store.Lineage.mono h hs

mutual

theorem Linked.mono : ∀ {v : Value}, v.Linked o s → s.Grows s' → v.Linked o s'
  | scalar _, _, _ => trivial
  | slice _ _ _, h, hs => AllLinked.mono h hs
  | struct _ _ _, h, hs => AllLinked.mono h hs
  | ptr _ _ _, h, hs => hs.load h
  | closure _, h, hs => Store.Lineage.mono h hs
  | func _, h, hs => linked_func_mono h hs
termination_by structural v => v

theorem AllLinked.mono : ∀ {vs : List Value}, AllLinked o s vs → s.Grows s' → AllLinked o s' vs
  | [], _, _ => trivial
  | _ :: _, h, hs => ⟨h.1.mono hs, AllLinked.mono h.2 hs⟩
termination_by structural vs => vs

end

theorem IsScalar.linked {v : Value} (h : v.IsScalar) : v.Linked o s := by
  obtain ⟨x, rfl⟩ := h
  trivial

mutual

theorem linked_zeroAs (whole : Ty) : ∀ t : Ty, (zeroAs whole t).Linked o s
  | .basic _ | .any | .slice _ | .ptr _ | .func _ => trivial
  | .struct fs => linked_zeroFields fs
  | .named _ _ t => linked_zeroAs whole t
termination_by structural t => t

theorem linked_zeroField : ∀ f : Field, (zeroField f).Linked o s
  | ⟨_, t⟩ => linked_zeroAs t t
termination_by structural f => f

theorem linked_zeroFields : ∀ fs : List Field, AllLinked o s (zeroFields fs)
  | [] => trivial
  | f :: fs => ⟨linked_zeroField f, linked_zeroFields fs⟩
termination_by structural fs => fs

end

theorem linked_zero (t : Ty) : (zero t).Linked o s := linked_zeroAs t t

end Value

/-! ## Stores and threads -/

/-- All values in the store are linked, and frames are as large as their functions ask. The store
grew from an earlier one. -/
structure Store.Linked (s : Store) (o : Output) (floor : Store) : Prop where
  cells : ∀ v ∈ s.cells, v.Linked o s
  frames : ∀ frame ∈ s.frames, frame.Sized o.program ∧ ∀ v ∈ frame.vars, v.Linked o s
  floor : floor.Grows s

structure Thread.Linked (o : Output) (floor : Store) (t : Thread) : Prop where
  store : t.world.store.Linked o floor
  stack : ∀ v ∈ t.stack, v.Linked o t.world.store

/-- A linked thread whose store grew from that of another. -/
structure Thread.Extends (o : Output) (floor : Store) (t t' : Thread) : Prop where
  linked : t'.Linked o floor
  grows : t.world.store.Grows t'.world.store

variable {o : Output} {floor : Store}

namespace Thread.Extends

variable {t t' t'' : Thread}

theorem refl (h : t.Linked o floor) : t.Extends o floor t := ⟨h, .refl _⟩

theorem trans (h : t.Extends o floor t') (h' : t'.Extends o floor t'') : t.Extends o floor t'' :=
  ⟨h'.linked, h.grows.trans h'.grows⟩

end Thread.Extends

namespace Store.Linked

variable {s s' : Store}

theorem publishing {w : World} (h : w.store.Linked o floor) (depth : Nat) :
    (w.publishing depth).store.Linked o floor := by
  have hgrows : w.store.Grows (w.publishing depth).store := .of_eq rfl rfl
  exact ⟨fun v hv => (h.cells v hv).mono hgrows,
    fun frame hframe => ⟨(h.frames frame hframe).1, fun v hv => ((h.frames frame hframe).2 v hv).mono hgrows⟩,
    h.floor.trans hgrows⟩

/-- What is no frame and no cell may differ. -/
theorem of_eq (h : s.Linked o floor) (hframes : s'.frames = s.frames) (hcells : s'.cells = s.cells) :
    s'.Linked o floor := by
  have hgrows : s.Grows s' := .of_eq hframes hcells
  refine ⟨fun v hv => (h.cells v (hcells ▸ hv)).mono hgrows, fun frame hframe => ?_, h.floor.trans hgrows⟩
  have hold := h.frames frame (hframes ▸ hframe)
  exact ⟨hold.1, fun v hv => (hold.2 v hv).mono hgrows⟩

theorem load (h : s.Linked o floor) {p : Place} {v : Value} (hv : s.load? p = some v) : v.Linked o s := by
  cases p with
  | cell i => exact h.cells v (Array.mem_of_getElem? hv)
  | slot f i =>
    obtain ⟨frame, hframe, hv⟩ := Option.bind_eq_some_iff.1 hv
    exact (h.frames frame (Array.mem_of_getElem? hframe)).2 v (Array.mem_of_getElem? hv)

theorem store (h : s.Linked o floor) {v : Value} {p : Place} (hs : s.store? v p = some s')
    (hv : v.Linked o s) : s'.Linked o floor := by
  have hgrows : s.Grows s' := .store hs
  have replaced {vs : Array Value} (hvs : ∀ u ∈ vs, u.Linked o s) (i : Nat) :
      ∀ u ∈ vs.setIfInBounds i v, u.Linked o s' := fun u hu => by
    obtain hu | rfl := Array.mem_or_eq_of_mem_setIfInBounds hu
    · exact (hvs u hu).mono hgrows
    · exact hv.mono hgrows
  cases p with
  | cell i =>
    rw [Store.store?] at hs
    split at hs <;> cases hs
    exact ⟨replaced h.cells i, fun frame hframe =>
      ⟨(h.frames frame hframe).1, fun u hu => ((h.frames frame hframe).2 u hu).mono hgrows⟩,
      h.floor.trans hgrows⟩
  | slot f i =>
    rw [Store.store?] at hs
    split at hs
    · split at hs <;> cases hs
      refine ⟨fun u hu => (h.cells u hu).mono hgrows, fun g hg => ?_, h.floor.trans hgrows⟩
      obtain ⟨j, hj, rfl⟩ := Array.getElem_of_mem hg
      rw [Array.size_modify] at hj
      have hold := h.frames _ (Array.getElem_mem hj)
      rw [Array.getElem_modify]
      split
      · exact ⟨by rw [Frame.Sized, Array.size_setIfInBounds]; exact hold.1, replaced hold.2 i⟩
      · exact ⟨hold.1, fun u hu => (hold.2 u hu).mono hgrows⟩
    · cases hs

theorem push (h : s.Linked o floor) {frame : Frame} (hsized : frame.Sized o.program)
    (hvars : ∀ v ∈ frame.vars, ∀ s, v.Linked o s) :
    Store.Linked { s with frames := s.frames.push frame } o floor := by
  have hgrows : s.Grows { s with frames := s.frames.push frame } := .push s frame
  refine ⟨fun v hv => (h.cells v hv).mono hgrows, fun g hg => ?_, h.floor.trans hgrows⟩
  obtain hg | rfl := Array.mem_push.1 hg
  · exact ⟨(h.frames g hg).1, fun v hv => ((h.frames g hg).2 v hv).mono hgrows⟩
  · exact ⟨hsized, fun v hv => hvars v hv _⟩

end Store.Linked

/-! ## Errors -/

/-- The cause tells of a variable that is not where its address says. -/
def Cause.Misses : Cause → Prop
  | .defect .scopeDistance | .defect (.slot _) => True
  | _ => False

/-- The stop tells of no such variable. -/
def Stop.Finds : Stop RuntimeError → Prop
  | .error e => ¬e.cause.Misses
  | .fault _ => True

/-! ## Tasks -/

/-- From `w` the task leads to a linked store that grew, with a result of `Q`; if it stops, then not
for a variable that is not there. -/
def HostTask.Links {α : Type} (o : Output) (floor : Store) (t : HostTask α) (w : World)
    (Q : α → World → Prop) : Prop :=
  t.Ensures w
    (fun a w' => (w'.store.Linked o floor ∧ w.store.Grows w'.store) ∧ Q a w')
    fun e w' => (w'.store.Linked o floor ∧ w.store.Grows w'.store) ∧ e.Finds

/-- A way to call function values that keeps all that is linked. -/
def Invoker.Faithful (o : Output) (floor : Store) (call : Invoker) : Prop :=
  ∀ (f : FuncValue) (args : List Value) (w : World), w.store.Linked o floor → f.Linked o w.store →
    (∀ v ∈ args, v.Linked o w.store) →
    HostTask.Links o floor (call f args) w fun vs w' => ∀ v ∈ vs, v.Linked o w'.store

/-- A host function that makes no closures and no pointers of its own to what is not there, if calls
of function values do not. -/
def HostBody.Faithful (o : Output) (floor : Store) (body : HostBody) : Prop :=
  ∀ (call : Invoker) (args : List Value) (w : World), call.Faithful o floor →
    w.store.Linked o floor → (∀ v ∈ args, v.Linked o w.store) →
    HostTask.Links o floor (body call args) w fun vs w' => ∀ v ∈ vs, v.Linked o w'.store

/-- What host functions hand to a program is linked from a store on. -/
structure Natives.Faithful (o : Output) (floor : Store) (n : Natives) : Prop where
  bodies : ∀ body ∈ n.bodies, body.Faithful o floor
  funcs : ∀ f ∈ n.funcs, f.func.Linked o floor
  funcvs : ∀ f ∈ n.funcvs, f.func.Linked o floor
  vars : ∀ v ∈ n.vars, (floor.load? v.cell).isSome

namespace Run

variable {α β : Type}

/-- From `s` the task leads to a linked thread, with a result of `Q`; if it stops, then not for a
variable that is not there. -/
def Links (o : Output) (floor : Store) (t : Run α) (s : Thread) (Q : α → Thread → Prop) : Prop :=
  t.Ensures s (fun a s' => s.Extends o floor s' ∧ Q a s')
    fun e s' => (s'.world.store.Linked o floor ∧ s.world.store.Grows s'.world.store) ∧ e.Finds

variable {s : Thread} {t : Run α} {Q R : α → Thread → Prop}

namespace Links

/-! ### Rules -/

theorem bind {f : α → Run β} {R : β → Thread → Prop} (h : Links o floor t s Q)
    (hf : ∀ a s', s.Extends o floor s' → Q a s' → Links o floor (f a) s' R) :
    Links o floor (t >>= f) s R :=
  Task.Ensures.bind h fun a s' ⟨hs, ha⟩ => Task.Ensures.mono (hf a s' hs ha)
    (fun _ _ h => ⟨hs.trans h.1, h.2⟩) fun _ _ h => ⟨⟨h.1.1, hs.grows.trans h.1.2⟩, h.2⟩

theorem pure {a : α} (hs : s.Linked o floor) (h : Q a s) : Links o floor (pure a) s Q :=
  ⟨.refl hs, h⟩

theorem fail {c : Cause} (hs : s.Linked o floor) (hc : ¬c.Misses) :
    Links o floor (Run.fail c : Run α) s Q := ⟨⟨hs.store, .refl _⟩, hc⟩

theorem failBind {c : Cause} {f : α → Run β} {R : β → Thread → Prop} (hs : s.Linked o floor)
    (hc : ¬c.Misses) : Links o floor (Run.fail c >>= f) s R := ⟨⟨hs.store, .refl _⟩, hc⟩

theorem get {f : Thread → Run β} {R : β → Thread → Prop} (h : Links o floor (f s) s R) :
    Links o floor (MonadState.get >>= f) s R := Task.ensures_bind.2 (Task.ensures_get.2 h)

/-- A part that is missing is a fault. -/
theorem expect {r : Option α} (hs : s.Linked o floor) :
    Links o floor (Task.expect r) s fun a s' => s = s' ∧ r = some a := by
  cases r with
  | some a => exact ⟨.refl hs, rfl, rfl⟩
  | none => exact ⟨⟨hs.store, .refl _⟩, trivial⟩

theorem ofChecked {r : Except Fault α} (hs : s.Linked o floor) :
    Links o floor (Task.ofChecked r) s fun a s' => s = s' ∧ r = .ok a := by
  cases r with
  | ok a => exact ⟨.refl hs, rfl, rfl⟩
  | error f => exact ⟨⟨hs.store, .refl _⟩, trivial⟩

theorem ofExcept {r : Except Cause α} (hs : s.Linked o floor) (h : ∀ a, r = .ok a → Q a s)
    (hc : ∀ c, r = .error c → ¬c.Misses) : Links o floor (Run.ofExcept r) s Q := by
  cases r with
  | ok a => exact ⟨.refl hs, h a rfl⟩
  | error c => exact ⟨⟨hs.store, .refl _⟩, hc c rfl⟩

theorem onWorld {t : HostTask α} {Q : α → World → Prop} (hs : s.Linked o floor)
    (h : HostTask.Links o floor t s.world Q) :
    Links o floor (Run.onWorld t) s fun a s' => Q a s'.world := by
  unfold HostTask.Links Task.Ensures at h
  unfold Links Task.Ensures
  rw [exec_onWorld]
  generalize t.exec s.world = r at h
  obtain ⟨e | a, w⟩ := r
  · exact h
  · exact ⟨⟨⟨h.1.1, fun v hv => (hs.stack v hv).mono h.1.2⟩, h.1.2⟩, h.2⟩

theorem within {name : String} (h : Links o floor t s Q) : Links o floor (t.within name) s Q :=
  Task.Ensures.mapError h (fun _ _ he => he) fun _ _ he => he

/-! ### The stack -/

theorem setStack {st : Stack} (hs : s.Linked o floor) (hst : ∀ v ∈ st, v.Linked o s.world.store) :
    Links o floor (Run.setStack st) s fun _ _ => True :=
  ⟨⟨⟨hs.store, hst⟩, .refl _⟩, trivial⟩

theorem push {v : Value} (hs : s.Linked o floor) (hv : v.Linked o s.world.store) :
    Links o floor (Run.push v) s fun _ _ => True := by
  refine setStack hs fun u hu => ?_
  obtain hu | rfl := Array.mem_push.1 hu
  · exact hs.stack u hu
  · exact hv

theorem pushAll {vs : List Value} (hs : s.Linked o floor)
    (hvs : ∀ v ∈ vs, v.Linked o s.world.store) : Links o floor (Run.pushAll vs) s fun _ _ => True := by
  refine setStack hs fun u hu => ?_
  rw [← Array.mem_toList_iff, Array.toList_appendList] at hu
  obtain hu | hu := List.mem_append.1 hu
  · exact hs.stack u (Array.mem_toList_iff.1 hu)
  · exact hvs u hu

theorem pop (hs : s.Linked o floor) :
    Links o floor Run.pop s fun v s' => v.Linked o s'.world.store := by
  refine get (bind (Q := fun r s' => s = s' ∧ r.1 ∈ s.stack ∧ ∀ v ∈ r.2, v ∈ s.stack)
    (ofExcept hs (fun r hr => ⟨rfl, ?_⟩) fun c hc => ?_) fun r s' _ hr => ?_)
  · unfold Stack.pop? at hr
    split at hr <;> cases hr
    rename_i v hv
    exact ⟨Array.mem_of_back? hv, fun u hu => mem_of_mem_pop hu⟩
  · unfold Stack.pop? at hc
    split at hc <;> cases hc
    exact id
  · obtain ⟨v, rest⟩ := r
    obtain ⟨rfl, hv, hrest⟩ := hr
    exact bind (setStack hs fun u hu => hs.stack u (hrest u hu)) fun _ s₂ hs₂ _ =>
      pure hs₂.linked ((hs.stack v hv).mono hs₂.grows)

theorem popMany {n : Nat} (hs : s.Linked o floor) :
    Links o floor (Run.popMany n) s fun vs s' => ∀ v ∈ vs, v.Linked o s'.world.store := by
  refine get (bind (Q := fun r s' => s = s' ∧ (∀ v ∈ r.1, v ∈ s.stack) ∧ ∀ v ∈ r.2, v ∈ s.stack)
    (ofExcept hs (fun r hr => ⟨rfl, ?_⟩) fun c hc => ?_) fun r s' _ hr => ?_)
  · unfold Stack.popMany? at hr
    split at hr <;> cases hr
    exact ⟨fun v hv => mem_of_mem_extract (Array.mem_toList_iff.1 hv),
      fun v hv => mem_of_mem_extract hv⟩
  · unfold Stack.popMany? at hc
    split at hc <;> cases hc
    exact id
  · obtain ⟨vs, rest⟩ := r
    obtain ⟨rfl, hvs, hrest⟩ := hr
    exact bind (setStack hs fun u hu => hs.stack u (hrest u hu)) fun _ s₂ hs₂ _ =>
      pure hs₂.linked fun v hv => (hs.stack v (hvs v hv)).mono hs₂.grows

theorem drop {n : Nat} (hs : s.Linked o floor) : Links o floor (Run.drop n) s fun _ _ => True := by
  refine get ?_
  dsimp only
  split
  · exact fail hs id
  · exact setStack hs fun u hu => hs.stack u (mem_of_mem_extract hu)

/-! ### Frames and places -/

theorem load {p : Place} (hs : s.Linked o floor) (hp : (s.world.store.load? p).isSome) :
    Links o floor (Run.load p) s fun v s' => v.Linked o s'.world.store := by
  refine onWorld (Q := fun (v : Value) w => v.Linked o w.store) hs ?_
  unfold HostTask.load
  refine Task.ensures_bind.2 (Task.ensures_get.2 ?_)
  split
  · exact ⟨⟨hs.store, .refl _⟩, hs.store.load ‹_›⟩
  · rename_i i hnone
    rw [hnone] at hp
    cases hp
  · exact ⟨⟨hs.store, .refl _⟩, trivial⟩

theorem store {p : Place} {v : Value} (hs : s.Linked o floor) (hp : (s.world.store.load? p).isSome)
    (hv : v.Linked o s.world.store) : Links o floor (Run.store p v) s fun _ _ => True := by
  refine onWorld (Q := fun _ _ => True) hs ?_
  unfold HostTask.store
  refine Task.ensures_bind.2 (Task.ensures_get.2 ?_)
  split
  · rename_i s' hs'
    exact ⟨⟨hs.store.store hs' hv, .store hs'⟩, trivial⟩
  · rename_i f i hnone
    obtain ⟨u, hu⟩ := Option.isSome_iff_exists.1 hp
    obtain ⟨frame, hframe, hu⟩ := Option.bind_eq_some_iff.1 hu
    rw [Store.store?, hframe] at hnone
    dsimp only at hnone
    rw [if_pos (Extends.lt_of_getElem? hu)] at hnone
    cases hnone
  · exact ⟨⟨hs.store, .refl _⟩, trivial⟩

theorem pointee {v : Value} (hs : s.Linked o floor) (hv : v.Linked o s.world.store) :
    Links o floor (Run.pointee v) s fun p s' => (s'.world.store.load? p).isSome := by
  unfold Run.pointee
  split
  · exact pure hs hv
  · exact fail hs id
  · exact fail hs id

theorem argumentHeight {ctx below : Nat} (hs : s.Linked o floor) :
    Links o floor (Run.argumentHeight ctx below) s fun _ _ => True := by
  refine get (bind (expect hs) fun f s' hs' _ => ?_)
  split
  · exact fail hs'.linked id
  · exact pure hs'.linked trivial

/-- Something new that is neither a frame nor a cell. -/
theorem allocate {make : Store → α × Store} (hs : s.Linked o floor)
    (hmake : ∀ st : Store, (make st).2 = { st with fresh := st.fresh + 1 })
    (h : ∀ s' : Thread, s.Extends o floor s' → Q (make s.world.store).1 s') :
    Links o floor (Run.onWorld (HostTask.allocate make)) s Q := by
  have hrun : (Run.onWorld (HostTask.allocate make)).exec s = (.ok (make s.world.store).1,
      { s with world := { s.world with store := (make s.world.store).2 } }) := rfl
  unfold Links Task.Ensures
  rw [hrun, hmake]
  have hgrows : s.world.store.Grows { s.world.store with fresh := s.world.store.fresh + 1 } :=
    .of_eq rfl rfl
  have hextends : s.Extends o floor
      { s with world := { s.world with store := { s.world.store with fresh := s.world.store.fresh + 1 } } } :=
    ⟨⟨hs.store.of_eq rfl rfl, fun v hv => (hs.stack v hv).mono hgrows⟩, hgrows⟩
  exact ⟨hextends, h _ hextends⟩

/-! ### Operators -/

theorem evaluate {op : Operator} {k : Kind} {x y : Value} (hs : s.Linked o floor) :
    Links o floor (Run.evaluate op k x y) s fun v s' => v.Linked o s'.world.store := by
  refine ofExcept hs (fun _ hv => (Operator.isScalar_of_eval (mapError_eq_ok hv)).linked) fun c hc => ?_
  cases hr : op.eval k x y with
  | ok v =>
    rw [hr] at hc
    cases hc
  | error e =>
    rw [hr] at hc
    cases hc
    exact id

theorem convert {v : Value} {k : Kind} (hs : s.Linked o floor) (hv : v.Linked o s.world.store) :
    Links o floor (Run.convert v k) s fun w s' => w.Linked o s'.world.store := by
  unfold Run.convert Value.convert
  split
  · rename_i w hw
    split at hw
    · cases hw
      exact pure hs hv
    · obtain ⟨x, -, rfl⟩ := Option.map_eq_some_iff.1 hw
      exact pure hs trivial
  · exact fail hs id

theorem updatePlace {op : Operator} {k : Kind} {p : Place} {y : Value} (hs : s.Linked o floor)
    (hp : (s.world.store.load? p).isSome) :
    Links o floor (Run.updatePlace op k p y) s fun _ _ => True :=
  bind (load hs hp) fun _ _ h₁ _ => bind (evaluate h₁.linked) fun _ _ h₂ hv =>
    store h₂.linked ((h₁.grows.trans h₂.grows).load hp) hv

theorem applyAddress {k : Kind} {op : AddressOperator} {p : Place} (hs : s.Linked o floor)
    (hp : (s.world.store.load? p).isSome) :
    Links o floor (Run.applyAddress k op p) s fun _ _ => True := by
  cases op with
  | load => exact bind (load hs hp) fun _ _ h₁ hv => push h₁.linked hv
  | store => exact bind (pop hs) fun _ _ h₁ hv => Links.store h₁.linked (h₁.grows.load hp) hv
  | increment => exact bind (convert hs trivial) fun _ _ h₁ _ => updatePlace h₁.linked (h₁.grows.load hp)
  | decrement => exact bind (convert hs trivial) fun _ _ h₁ _ => updatePlace h₁.linked (h₁.grows.load hp)
  | update op => exact bind (pop hs) fun _ _ h₁ _ => updatePlace h₁.linked (h₁.grows.load hp)

/-! ### Arguments -/

theorem readArity {field : ArityField} (hs : s.Linked o floor) :
    Links o floor (Run.readArity field) s fun _ _ => True := by
  cases field with
  | spread => exact pure hs trivial
  | count n => exact pure hs trivial
  | overflow =>
    refine bind (pop hs) fun v s₁ h₁ _ => ?_
    split
    · split
      · exact fail h₁.linked id
      · exact pure h₁.linked trivial
    · exact fail h₁.linked id

theorem lastParam {params : List Ty} {numIn : Nat} {callee : String} (hs : s.Linked o floor) :
    Links o floor (Run.lastParam params numIn callee) s fun _ _ => True := by
  unfold Run.lastParam
  split
  · exact fail hs id
  · split
    · exact pure hs trivial
    · exact fail hs id

theorem newSlice {elem : Ty} {items : List Value} (hs : s.Linked o floor)
    (hitems : ∀ v ∈ items, v.Linked o s.world.store) :
    Links o floor (Run.onWorld (HostTask.newSlice elem items)) s
      fun v s' => v.Linked o s'.world.store :=
  allocate hs (fun _ => rfl) fun _ h => Value.allLinked_iff.2 fun v hv => (hitems v hv).mono h.grows

theorem pack {last : Ty} {fixed : Nat} {callee : String} {arity : Arity} (hs : s.Linked o floor) :
    Links o floor (Run.pack last fixed callee arity) s fun _ _ => True := by
  unfold Run.pack
  dsimp only
  cases arity with
  | spread =>
    refine bind (pop hs) fun v s₁ h₁ hv => ?_
    split
    · exact bind (newSlice h₁.linked (by simp)) fun _ s₂ h₂ hw => push h₂.linked hw
    · exact push h₁.linked hv
    · exact fail h₁.linked id
  | count n =>
    dsimp only
    split
    · exact failBind hs id
    · refine bind (popMany hs) fun items s₁ h₁ hitems => ?_
      split
      · exact fail h₁.linked id
      · exact bind (newSlice h₁.linked hitems) fun _ s₂ h₂ hw => push h₂.linked hw

theorem checkCount {callee : String} {numIn : Nat} {arity : Arity} (hs : s.Linked o floor) :
    Links o floor (Run.checkCount callee numIn arity) s fun _ _ => True := by
  unfold Run.checkCount
  split
  · split
    · exact pure hs trivial
    · exact fail hs id
  · exact fail hs id

theorem takeArgs {sig : Signature} {callee : String} {arity : Arity} (hs : s.Linked o floor) :
    Links o floor (Run.takeArgs sig callee arity) s
      fun vs s' => ∀ v ∈ vs, v.Linked o s'.world.store := by
  unfold Run.takeArgs
  split
  · exact bind (lastParam hs) fun _ s₁ h₁ _ => bind (pack h₁.linked) fun _ s₂ h₂ _ =>
      popMany h₂.linked
  · exact bind (checkCount hs) fun _ s₁ h₁ _ => popMany h₁.linked

end Links

end Run

end StackScript
