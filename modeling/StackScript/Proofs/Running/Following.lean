import StackScript.Proofs.Running.Limits
import StackScript.Proofs.Running.Sound

/-!
# Sound threads

All that the values of a sound thread refer to is there. `Run.Safe`: from a sound thread a task leads to
a sound thread or to an error. One lemma for each way to build a task, and for each task on the stack and
the store, says so.
-/

namespace StackScript

variable {m : Machine} {floor : Extent}

/-- What the values of a thread refer to. -/
abbrev Machine.extentOf (m : Machine) (t : Thread) : Extent := m.extent t.world.store

/-- All that the values of the thread refer to is there. -/
structure Thread.Sound (m : Machine) (floor : Extent) (t : Thread) : Prop where
  store : t.world.store.Sound m floor
  stack : ∀ v ∈ t.stack, v.Within (m.extentOf t)

/-- What the floor has, a sound thread has. -/
theorem Thread.Sound.func {t : Thread} {f : FuncValue} (ht : t.Sound m floor) (hf : f.Within floor) :
    f.Within (m.extentOf t) := Value.within_func_mono hf ht.store.floor

/-- A sound thread that came after another, with as many active functions. -/
structure Thread.Follows (m : Machine) (floor : Extent) (t t' : Thread) : Prop where
  sound : t'.Sound m floor
  grows : (m.extentOf t).Grows (m.extentOf t')
  depth : t'.depth = t.depth

namespace Thread.Follows

variable {t t' t'' : Thread}

theorem refl (h : t.Sound m floor) : t.Follows m floor t := ⟨h, .refl _, rfl⟩

theorem trans (h : t.Follows m floor t') (h' : t'.Follows m floor t'') : t.Follows m floor t'' :=
  ⟨h'.sound, h.grows.trans h'.grows, h'.depth.trans h.depth⟩

theorem lt_frames {ctx : Nat} (h : t.Follows m floor t') (hctx : ctx < t.world.store.frames.size) :
    ctx < t'.world.store.frames.size :=
  Nat.lt_of_lt_of_le hctx h.grows.frames

end Thread.Follows

namespace Run

variable {α β : Type}

/-- From `s` the task leads to a sound thread with a result of `Q`, or to an error. -/
def Safe (m : Machine) (floor : Extent) (t : Run α) (s : Thread) (Q : α → Thread → Prop) : Prop :=
  t.Ensures s (fun a s' => s.Follows m floor s' ∧ Q a s') fun e _ => e.IsError

variable {s : Thread} {t : Run α} {Q R : α → Thread → Prop}

namespace Safe

/-! ### Rules -/

theorem imp (h : Safe m floor t s Q) (hQ : ∀ a s', s.Follows m floor s' → Q a s' → R a s') :
    Safe m floor t s R :=
  Task.Ensures.imp h fun a s' h => ⟨h.1, hQ a s' h.1 h.2⟩

theorem bind {f : α → Run β} {R : β → Thread → Prop} (h : Safe m floor t s Q)
    (hf : ∀ a s', s.Follows m floor s' → Q a s' → Safe m floor (f a) s' R) :
    Safe m floor (t >>= f) s R :=
  Task.Ensures.bind h fun a s' ⟨hs, ha⟩ =>
    Task.Ensures.imp (hf a s' hs ha) fun _ _ h => ⟨hs.trans h.1, h.2⟩

theorem pure {a : α} (hs : s.Sound m floor) (h : Q a s) : Safe m floor (pure a) s Q :=
  ⟨.refl hs, h⟩

theorem fail (c : Cause) : Safe m floor (Run.fail c : Run α) s Q := trivial

theorem failBind {c : Cause} {f : α → Run β} {R : β → Thread → Prop} :
    Safe m floor (Run.fail c >>= f) s R := trivial

theorem defect (d : Defect) : Safe m floor (Run.defect d : Run α) s Q := trivial

theorem get {f : Thread → Run β} {R : β → Thread → Prop} (h : Safe m floor (f s) s R) :
    Safe m floor (MonadState.get >>= f) s R := Task.ensures_bind.2 (Task.ensures_get.2 h)

theorem expect {r : Option α} {a : α} (hs : s.Sound m floor) (hr : r = some a) (h : Q a s) :
    Safe m floor (Task.expect r) s Q := by
  subst hr
  exact ⟨.refl hs, h⟩

theorem ofChecked {r : Except Fault α} {a : α} (hs : s.Sound m floor) (hr : r = .ok a) (h : Q a s) :
    Safe m floor (Task.ofChecked r) s Q := by
  subst hr
  exact ⟨.refl hs, h⟩

theorem ofExcept {r : Except Cause α} (hs : s.Sound m floor) (h : ∀ a, r = .ok a → Q a s) :
    Safe m floor (Run.ofExcept r) s Q := by
  cases r with
  | ok a => exact ⟨.refl hs, h a rfl⟩
  | error c => trivial

theorem onWorld {t : HostTask α} {Q : α → World → Prop} (hs : s.Sound m floor)
    (h : HostTask.Safe m floor t s.world Q) :
    Safe m floor (Run.onWorld t) s fun a s' => Q a s'.world := by
  unfold HostTask.Safe Task.Ensures at h
  unfold Safe Task.Ensures
  have hrun : (Run.onWorld t).exec s = ((t.exec s.world).1,
      ⟨(t.exec s.world).2, s.stack, s.steps, s.depth⟩) := rfl
  rw [hrun]
  generalize t.exec s.world = r at h
  obtain ⟨e | a, w⟩ := r
  · exact h
  · exact ⟨⟨⟨h.1, fun v hv => (hs.stack v hv).mono h.2.1⟩, h.2.1, rfl⟩, h.2.2⟩

theorem within {name : String} (h : Safe m floor t s Q) : Safe m floor (t.within name) s Q :=
  Task.Ensures.mapError h (fun _ _ _ => trivial) fun _ _ => False.elim

/-! ### The stack -/

theorem setStack {st : Stack} (hs : s.Sound m floor) (hst : ∀ v ∈ st, v.Within (m.extentOf s)) :
    Safe m floor (Run.setStack st) s fun _ _ => True :=
  ⟨⟨⟨hs.store, hst⟩, .refl _, rfl⟩, trivial⟩

theorem push {v : Value} (hs : s.Sound m floor) (hv : v.Within (m.extentOf s)) :
    Safe m floor (Run.push v) s fun _ _ => True := by
  refine setStack hs fun u hu => ?_
  obtain hu | rfl := Array.mem_push.1 hu
  · exact hs.stack u hu
  · exact hv

theorem pushAll {vs : List Value} (hs : s.Sound m floor)
    (hvs : ∀ v ∈ vs, v.Within (m.extentOf s)) :
    Safe m floor (Run.pushAll vs) s fun _ _ => True := by
  refine setStack hs fun u hu => ?_
  rw [← Array.mem_toList_iff, Array.toList_appendList] at hu
  obtain hu | hu := List.mem_append.1 hu
  · exact hs.stack u (Array.mem_toList_iff.1 hu)
  · exact hvs u hu

theorem pop (hs : s.Sound m floor) :
    Safe m floor Run.pop s fun v s' => v.Within (m.extentOf s') := by
  refine get (bind (Q := fun r s' => s = s' ∧ r.1 ∈ s.stack ∧ ∀ v ∈ r.2, v ∈ s.stack)
    (ofExcept hs fun r hr => ⟨rfl, ?_⟩) fun r s' _ hr => ?_)
  · unfold Stack.pop? at hr
    split at hr <;> cases hr
    rename_i v hv
    exact ⟨Array.mem_of_back? hv, fun u hu => mem_of_mem_pop hu⟩
  · obtain ⟨v, rest⟩ := r
    obtain ⟨rfl, hv, hrest⟩ := hr
    exact bind (setStack hs fun u hu => hs.stack u (hrest u hu)) fun _ s₂ hs₂ _ =>
      pure hs₂.sound ((hs.stack v hv).mono hs₂.grows)

theorem popMany {n : Nat} (hs : s.Sound m floor) :
    Safe m floor (Run.popMany n) s fun vs s' => ∀ v ∈ vs, v.Within (m.extentOf s') := by
  refine get (bind (Q := fun r s' => s = s' ∧ (∀ v ∈ r.1, v ∈ s.stack) ∧ ∀ v ∈ r.2, v ∈ s.stack)
    (ofExcept hs fun r hr => ⟨rfl, ?_⟩) fun r s' _ hr => ?_)
  · unfold Stack.popMany? at hr
    split at hr <;> cases hr
    exact ⟨fun v hv => mem_of_mem_extract (Array.mem_toList_iff.1 hv),
      fun v hv => mem_of_mem_extract hv⟩
  · obtain ⟨vs, rest⟩ := r
    obtain ⟨rfl, hvs, hrest⟩ := hr
    exact bind (setStack hs fun u hu => hs.stack u (hrest u hu)) fun _ s₂ hs₂ _ =>
      pure hs₂.sound fun v hv => (hs.stack v (hvs v hv)).mono hs₂.grows

theorem drop {n : Nat} (hs : s.Sound m floor) : Safe m floor (Run.drop n) s fun _ _ => True := by
  refine get ?_
  dsimp only
  split
  · exact fail _
  · exact setStack hs fun u hu => hs.stack u (mem_of_mem_extract hu)

/-! ### Frames and places -/

theorem frameOf {ctx : Nat} {scope : Scope} (hs : s.Sound m floor)
    (hctx : ctx < s.world.store.frames.size) :
    Safe m floor (Run.frameOf ctx scope) s fun f s' => f < s'.world.store.frames.size := by
  cases scope with
  | global => exact get (pure hs (Nat.lt_of_le_of_lt (Store.Sound.root_le _ _) hctx))
  | up n =>
    refine get ?_
    split
    · exact pure hs (hs.store.ancestor_lt hctx ‹_›)
    · exact defect _

theorem load {p : Place} (hs : s.Sound m floor) (hp : p.Within (m.extentOf s)) :
    Safe m floor (Run.load p) s fun v s' => v.Within (m.extentOf s') := by
  refine onWorld (Q := fun (v : Value) w => v.Within (m.extent w.store)) hs ?_
  unfold HostTask.load
  refine Task.ensures_bind.2 (Task.ensures_get.2 ?_)
  split
  · exact ⟨hs.store, .refl _, hs.store.load ‹_›⟩
  · trivial
  · rename_i i hnone
    exact absurd hnone (by
      have hlt : i < s.world.store.cells.size := hp
      simp [Store.load?, hlt])

theorem store {p : Place} {v : Value} (hs : s.Sound m floor) (hp : p.Within (m.extentOf s))
    (hv : v.Within (m.extentOf s)) : Safe m floor (Run.store p v) s fun _ _ => True := by
  refine onWorld (Q := fun _ _ => True) hs ?_
  unfold HostTask.store
  refine Task.ensures_bind.2 (Task.ensures_get.2 ?_)
  split
  · rename_i s' hs'
    obtain ⟨hextent, hsound⟩ := hs.store.store hs' hv
    exact ⟨hsound, hextent ▸ .refl _, trivial⟩
  · trivial
  · rename_i i hnone
    exact absurd hnone (by
      have hlt : i < s.world.store.cells.size := hp
      simp [Store.store?, hlt])

theorem pointee {v : Value} (hs : s.Sound m floor) (hv : v.Within (m.extentOf s)) :
    Safe m floor (Run.pointee v) s fun p s' => p.Within (m.extentOf s') := by
  unfold Run.pointee
  split
  · exact pure hs hv
  · exact fail _
  · exact fail _

theorem argumentHeight {ctx below : Nat} (hs : s.Sound m floor)
    (hctx : ctx < s.world.store.frames.size) :
    Safe m floor (Run.argumentHeight ctx below) s fun _ _ => True := by
  refine get (bind (expect (Q := fun _ _ => True) hs (Array.getElem?_eq_getElem hctx) trivial)
    fun f s' hs' _ => ?_)
  split
  · exact defect _
  · exact pure hs'.sound trivial

/-- A new number, for a value that refers to what is there. -/
theorem allocate {make : Store → Value × Store} (hs : s.Sound m floor)
    (hmake : ∀ st : Store, (make st).2 = { st with fresh := st.fresh + 1 })
    (hv : ∀ st : Store, m.extent st = m.extentOf s → (make st).1.Within (m.extentOf s)) :
    Safe m floor (Run.onWorld (HostTask.allocate make)) s fun v s' => v.Within (m.extentOf s') := by
  refine onWorld (Q := fun (v : Value) w => v.Within (m.extent w.store)) hs ?_
  show (make s.world.store).2.Sound m floor ∧ _ ∧ (make s.world.store).1.Within
    (m.extent (make s.world.store).2)
  rw [hmake]
  exact ⟨⟨hs.store.cells, hs.store.frames, hs.store.floor⟩, .refl _, hv _ rfl⟩

/-! ### Operators -/

theorem evaluate {op : Operator} {k : Kind} {x y : Value} (hs : s.Sound m floor) :
    Safe m floor (Run.evaluate op k x y) s fun v s' => v.Within (m.extentOf s') :=
  ofExcept hs fun _ hv => (Operator.isScalar_of_eval (mapError_eq_ok hv)).within

theorem convert {v : Value} {k : Kind} (hs : s.Sound m floor) (hv : v.Within (m.extentOf s)) :
    Safe m floor (Run.convert v k) s fun w s' => w.Within (m.extentOf s') := by
  unfold Run.convert Value.convert
  split
  · rename_i w hw
    split at hw
    · cases hw
      exact pure hs hv
    · obtain ⟨x, -, rfl⟩ := Option.map_eq_some_iff.1 hw
      exact pure hs trivial
  · exact fail _

theorem updatePlace {op : Operator} {k : Kind} {p : Place} {y : Value} (hs : s.Sound m floor)
    (hp : p.Within (m.extentOf s)) :
    Safe m floor (Run.updatePlace op k p y) s fun _ _ => True :=
  bind (load hs hp) fun _ _ h₁ _ => bind (evaluate h₁.sound) fun _ _ h₂ hv =>
    store h₂.sound (Value.within_place_mono hp (h₁.grows.trans h₂.grows)) hv

theorem applyAddress {k : Kind} {op : AddressOperator} {p : Place} (hs : s.Sound m floor)
    (hp : p.Within (m.extentOf s)) : Safe m floor (Run.applyAddress k op p) s fun _ _ => True := by
  have later {s' : Thread} (h : s.Follows m floor s') : p.Within (m.extentOf s') :=
    Value.within_place_mono hp h.grows
  cases op with
  | load => exact bind (load hs hp) fun _ _ h₁ hv => push h₁.sound hv
  | store => exact bind (pop hs) fun _ _ h₁ hv => Safe.store h₁.sound (later h₁) hv
  | increment => exact bind (convert hs trivial) fun _ _ h₁ _ => updatePlace h₁.sound (later h₁)
  | decrement => exact bind (convert hs trivial) fun _ _ h₁ _ => updatePlace h₁.sound (later h₁)
  | update op => exact bind (pop hs) fun _ _ h₁ _ => updatePlace h₁.sound (later h₁)

/-! ### Arguments -/

theorem readArity {field : ArityField} (hs : s.Sound m floor) :
    Safe m floor (Run.readArity field) s fun _ _ => True := by
  cases field with
  | spread => exact pure hs trivial
  | count n => exact pure hs trivial
  | overflow =>
    refine bind (pop hs) fun v s₁ h₁ _ => ?_
    split
    · split
      · exact fail _
      · exact pure h₁.sound trivial
    · exact fail _

theorem lastParam {params : List Ty} {numIn : Nat} {callee : String} (hs : s.Sound m floor) :
    Safe m floor (Run.lastParam params numIn callee) s fun _ _ => True := by
  unfold Run.lastParam
  split
  · exact defect _
  · split
    · exact pure hs trivial
    · exact defect _

theorem newSlice {elem : Ty} {items : List Value} (hs : s.Sound m floor)
    (hitems : ∀ v ∈ items, v.Within (m.extentOf s)) :
    Safe m floor (Run.onWorld (HostTask.newSlice elem items)) s
      fun v s' => v.Within (m.extentOf s') :=
  allocate hs (fun _ => rfl) fun _ _ => Value.allWithin_iff.2 hitems

theorem pack {last : Ty} {fixed : Nat} {callee : String} {arity : Arity} (hs : s.Sound m floor) :
    Safe m floor (Run.pack last fixed callee arity) s fun _ _ => True := by
  unfold Run.pack
  dsimp only
  cases arity with
  | spread =>
    refine bind (pop hs) fun v s₁ h₁ hv => ?_
    split
    · exact bind (newSlice h₁.sound (by simp)) fun _ s₂ h₂ hw => push h₂.sound hw
    · exact push h₁.sound hv
    · exact fail _
  | count n =>
    dsimp only
    split
    · exact failBind
    · refine bind (popMany hs) fun items s₁ h₁ hitems => ?_
      split
      · exact fail _
      · exact bind (newSlice h₁.sound hitems) fun _ s₂ h₂ hw => push h₂.sound hw

theorem checkCount {callee : String} {numIn : Nat} {arity : Arity} (hs : s.Sound m floor) :
    Safe m floor (Run.checkCount callee numIn arity) s fun _ _ => True := by
  unfold Run.checkCount
  split
  · split
    · exact pure hs trivial
    · exact fail _
  · exact fail _

theorem takeArgs {sig : Signature} {callee : String} {arity : Arity} (hs : s.Sound m floor) :
    Safe m floor (Run.takeArgs sig callee arity) s
      fun vs s' => ∀ v ∈ vs, v.Within (m.extentOf s') := by
  unfold Run.takeArgs
  split
  · exact bind (lastParam hs) fun _ s₁ h₁ _ => bind (pack h₁.sound) fun _ s₂ h₂ _ =>
      popMany h₂.sound
  · exact bind (checkCount hs) fun _ s₁ h₁ _ => popMany h₁.sound

end Safe

end Run

end StackScript
