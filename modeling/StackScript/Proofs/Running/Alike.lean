import StackScript.Proofs.Running.Quiet

/-!
# Runs that look the same to host functions

A host function sees the values in the store and what was written. It does not see at which height
of a stack a function was entered, or how many are active. `World.Alike` says that two worlds differ
in no more than that, and `HostBody.Blind` that a host function does the same in either.
-/

namespace StackScript

/-! ## Tasks side by side -/

namespace Task

variable {ε ε' σ σ' α α' β β' : Type}

/-- Run from two states, two tasks either both give results, which with the states are as `Q` says,
or both stop, as `E` says. -/
def Matches (t : Task ε σ α) (t' : Task ε' σ' α') (s : σ) (s' : σ')
    (Q : α → σ → α' → σ' → Prop) (E : Stop ε → σ → Stop ε' → σ' → Prop) : Prop :=
  match t.exec s, t'.exec s' with
  | (.ok a, u), (.ok a', u') => Q a u a' u'
  | (.error e, u), (.error e', u') => E e u e' u'
  | _, _ => False

namespace Matches

variable {t : Task ε σ α} {t' : Task ε' σ' α'} {s : σ} {s' : σ'} {Q R : α → σ → α' → σ' → Prop}
  {E : Stop ε → σ → Stop ε' → σ' → Prop}

theorem imp (h : t.Matches t' s s' Q E) (hQ : ∀ a u a' u', Q a u a' u' → R a u a' u') :
    t.Matches t' s s' R E := by
  unfold Matches at h ⊢
  split at h
  · exact hQ _ _ _ _ h
  · exact h
  · exact h.elim

theorem bind {f : α → Task ε σ β} {f' : α' → Task ε' σ' β'} {R : β → σ → β' → σ' → Prop}
    (h : t.Matches t' s s' Q E)
    (hf : ∀ a u a' u', Q a u a' u' → (f a).Matches (f' a') u u' R E) :
    (t >>= f).Matches (t' >>= f') s s' R E := by
  unfold Matches at h
  split at h
  · rename_i a u a' u' ht ht'
    have hnext := hf a u a' u' h
    unfold Matches at hnext ⊢
    rwa [exec_bind_ok ht, exec_bind_ok ht']
  · rename_i e u e' u' ht ht'
    unfold Matches
    rw [exec_bind_error ht, exec_bind_error ht']
    exact h
  · exact h.elim

end Matches

end Task

/-! ## Errors -/

/-- The same cause, but for the number that an error of the depth limit tells. -/
inductive Cause.Alike : Cause → Cause → Prop
  | refl (c : Cause) : Alike c c
  | depth (most most' : Nat) (name : String) : Alike (.depthLimit most name) (.depthLimit most' name)

structure RuntimeError.Alike (e e' : RuntimeError) : Prop where
  cause : e.cause.Alike e'.cause
  trace : e'.trace = e.trace

inductive Stop.Alike : Stop RuntimeError → Stop RuntimeError → Prop
  | error {e e' : RuntimeError} (h : e.Alike e') : Alike (.error e) (.error e')
  | fault (f : Fault) : Alike (.fault f) (.fault f)

theorem RuntimeError.Alike.refl (e : RuntimeError) : e.Alike e := ⟨.refl _, rfl⟩

theorem Stop.Alike.refl (e : Stop RuntimeError) : e.Alike e := by
  cases e with
  | error e => exact .error (.refl e)
  | fault f => exact .fault f

/-- Errors that are alike are of one class. -/
theorem RuntimeError.Alike.errorClass {e e' : RuntimeError} (h : e.Alike e') :
    e'.errorClass = e.errorClass := by
  unfold RuntimeError.errorClass
  obtain ⟨hcause, -⟩ := h
  generalize e.cause = c, e'.cause = c' at hcause
  cases hcause <;> rfl

/-! ## Worlds -/

/-- The height at which a function was entered on either of two stacks, and the number of variables
in its frame. -/
structure Pin where
  frame : Nat
  height : Nat
  height' : Nat
  vars : Nat

/-- The frame without the height. -/
def Frame.lowered (f : Frame) : Frame := { f with base := 0 }

/-- The stores differ in heights of frames only, and these are as the pins say. -/
structure Store.Alike (pins : List Pin) (s s' : Store) : Prop where
  cells : s'.cells = s.cells
  fresh : s'.fresh = s.fresh
  frames : s'.frames.map Frame.lowered = s.frames.map Frame.lowered
  pinned : ∀ p ∈ pins, ∃ f f', s.frames[p.frame]? = some f ∧ s'.frames[p.frame]? = some f' ∧
    f.base = p.height ∧ f'.base = p.height' ∧ f.vars.size = p.vars

namespace Store.Alike

variable {pins : List Pin} {s s' : Store}

theorem size (h : s.Alike pins s') : s'.frames.size = s.frames.size := by
  have := congrArg Array.size h.frames
  simpa using this

theorem lowered (h : s.Alike pins s') (i : Nat) :
    s'.frames[i]?.map Frame.lowered = s.frames[i]?.map Frame.lowered := by
  rw [← Array.getElem?_map, ← Array.getElem?_map, h.frames]

/-- A frame of one store is in the other at another height. -/
theorem frame (h : s.Alike pins s') {i : Nat} {f : Frame} (hf : s.frames[i]? = some f) :
    ∃ f', s'.frames[i]? = some f' ∧ f'.func = f.func ∧ f'.parent = f.parent ∧ f'.vars = f.vars := by
  have hi := h.lowered i
  rw [hf, Option.map_some, Option.map_eq_some_iff] at hi
  obtain ⟨f', hf', heq⟩ := hi
  obtain ⟨hfunc, hparent, -, hvars⟩ := Frame.mk.inj heq
  exact ⟨f', hf', hfunc, hparent, hvars⟩

theorem frame_none (h : s.Alike pins s') {i : Nat} (hf : s.frames[i]? = none) :
    s'.frames[i]? = none := by
  rw [Array.getElem?_eq_none_iff] at hf ⊢
  rwa [h.size]

theorem parent (h : s.Alike pins s') (i : Nat) :
    s'.frames[i]?.bind (·.parent) = s.frames[i]?.bind (·.parent) := by
  cases hf : s.frames[i]? with
  | none => rw [h.frame_none hf]
  | some f =>
    obtain ⟨f', hf', -, hparent, -⟩ := h.frame hf
    rw [hf']
    exact hparent

theorem root (h : s.Alike pins s') (i : Nat) : s'.root i = s.root i := by
  induction i using Nat.strongRecOn with
  | ind i ih =>
    rw [Store.root, Store.root, h.parent i]
    split
    · split
      · exact ih _ ‹_›
      · rfl
    · rfl

theorem ancestor (h : s.Alike pins s') (n i : Nat) : s'.ancestor? i n = s.ancestor? i n := by
  induction n generalizing i with
  | zero => rfl
  | succ n ih =>
    rw [Store.ancestor?, Store.ancestor?, h.parent i]
    congr 1
    funext q
    exact ih q

theorem load (h : s.Alike pins s') (p : Place) : s'.load? p = s.load? p := by
  cases p with
  | cell i => exact congrArg (·[i]?) h.cells
  | slot f i =>
    show s'.frames[f]?.bind (·.vars[i]?) = s.frames[f]?.bind (·.vars[i]?)
    cases hf : s.frames[f]? with
    | none => rw [h.frame_none hf]
    | some frame =>
      obtain ⟨frame', hf', -, -, hvars⟩ := h.frame hf
      rw [hf']
      exact congrArg (·[i]?) hvars

/-- Something else in place of the variables of a frame. -/
theorem modify (h : s.Alike pins s') (i : Nat) {g : Array Value → Array Value}
    (hg : ∀ vs, (g vs).size = vs.size) :
    Store.Alike pins { s with frames := s.frames.modify i fun f => { f with vars := g f.vars } }
      { s' with frames := s'.frames.modify i fun f => { f with vars := g f.vars } } where
  cells := h.cells
  fresh := h.fresh
  frames := by
    refine Array.ext_getElem? fun j => ?_
    have hj := h.lowered j
    rw [Array.getElem?_map, Array.getElem?_map, Array.getElem?_modify, Array.getElem?_modify]
    split
    · cases hf : s.frames[j]? with
      | none => rw [h.frame_none hf]
      | some f =>
        obtain ⟨f', hf', hfunc, hparent, hvars⟩ := h.frame hf
        rw [hf']
        simp [Frame.lowered, hfunc, hparent, hvars]
    · exact hj
  pinned p hp := by
    obtain ⟨f, f', hf, hf', hbase, hbase', hvars⟩ := h.pinned p hp
    by_cases hi : i = p.frame
    · refine ⟨{ f with vars := g f.vars }, { f' with vars := g f'.vars }, ?_, ?_, hbase, hbase',
        (hg _).trans hvars⟩
      · simp [Array.getElem?_modify, hi, hf]
      · simp [Array.getElem?_modify, hi, hf']
    · refine ⟨f, f', ?_, ?_, hbase, hbase', hvars⟩
      · simp [Array.getElem?_modify, hi, hf]
      · simp [Array.getElem?_modify, hi, hf']

theorem store (h : s.Alike pins s') (v : Value) (p : Place) :
    (s.store? v p = none ∧ s'.store? v p = none) ∨
      ∃ u u', s.store? v p = some u ∧ s'.store? v p = some u' ∧ u.Alike pins u' := by
  cases p with
  | cell i =>
    have hcells := h.cells
    by_cases hi : i < s.cells.size
    · exact .inr ⟨_, _, if_pos hi, if_pos (hcells ▸ hi),
        congrArg (·.setIfInBounds i v) hcells, h.fresh, h.frames, h.pinned⟩
    · exact .inl ⟨if_neg hi, if_neg (hcells ▸ hi)⟩
  | slot f i =>
    cases hf : s.frames[f]? with
    | none =>
      have hf' := h.frame_none hf
      exact .inl ⟨by simp only [Store.store?, hf], by simp only [Store.store?, hf']⟩
    | some frame =>
      obtain ⟨frame', hf', -, -, hvars⟩ := h.frame hf
      simp only [Store.store?, hf, hf', hvars]
      split
      · exact .inr ⟨_, _, rfl, rfl, h.modify f fun vs => Array.size_setIfInBounds⟩
      · exact .inl ⟨rfl, rfl⟩

/-- A function that is entered at a height of its own in either. -/
theorem newFrame (h : s.Alike pins s') (func parent : Option Nat) (vars : Array Value)
    (height height' : Nat) :
    (s'.newFrame ⟨func, parent, height', vars⟩).1 = (s.newFrame ⟨func, parent, height, vars⟩).1 ∧
      (s.newFrame ⟨func, parent, height, vars⟩).2.Alike
        (⟨s.frames.size, height, height', vars.size⟩ :: pins)
        (s'.newFrame ⟨func, parent, height', vars⟩).2 := by
  refine ⟨h.size, h.cells, h.fresh, ?_, fun p hp => ?_⟩
  · simp only [Store.newFrame, Array.map_push, h.frames]
    rfl
  · obtain rfl | hp := List.mem_cons.1 hp
    · refine ⟨⟨func, parent, height, vars⟩, ⟨func, parent, height', vars⟩,
        Array.getElem?_push_size, ?_, rfl, rfl, rfl⟩
      rw [← h.size]
      exact Array.getElem?_push_size
    · obtain ⟨f, f', hf, hf', hrest⟩ := h.pinned p hp
      have hlt := (Array.getElem?_eq_some_iff.1 hf).1
      have hlt' := (Array.getElem?_eq_some_iff.1 hf').1
      refine ⟨f, f', ?_, ?_, hrest⟩
      · simp [Store.newFrame, Array.getElem?_push, Nat.ne_of_lt hlt, hf]
      · simp [Store.newFrame, Array.getElem?_push, Nat.ne_of_lt hlt', hf']

/-- Something new under the next number. -/
theorem numbered (h : s.Alike pins s') : s.number.2.Alike pins s'.number.2 :=
  ⟨h.cells, congrArg (· + 1) h.fresh, h.frames, h.pinned⟩

theorem mono (h : s.Alike pins s') {pins' : List Pin} (hsub : pins' ⊆ pins) : s.Alike pins' s' :=
  ⟨h.cells, h.fresh, h.frames, fun p hp => h.pinned p (hsub hp)⟩

end Store.Alike

/-- The worlds differ in heights of frames only, and in the depth that is published. -/
structure World.Alike (pins : List Pin) (w w' : World) : Prop where
  store : w.store.Alike pins w'.store
  output : w'.output = w.output

theorem World.Alike.publishing {pins : List Pin} {w w' : World} (h : w.Alike pins w')
    (depth depth' : Nat) : (w.publishing depth).Alike pins (w'.publishing depth') :=
  ⟨⟨h.store.cells, h.store.fresh, h.store.frames, h.store.pinned⟩, h.output⟩

theorem World.Alike.mono {pins pins' : List Pin} {w w' : World} (h : w.Alike pins w')
    (hsub : pins' ⊆ pins) : w.Alike pins' w' := ⟨h.store.mono hsub, h.output⟩

/-! ## Host functions -/

/-- The worlds are alike, and the one publishes the depth `d`, the other one `d'`. -/
structure World.Level (d d' : Nat) (pins : List Pin) (w w' : World) : Prop where
  alike : w.Alike pins w'
  depth : w.store.hostDepth = d
  depth' : w'.store.hostDepth = d'

/-- From worlds that are alike the tasks go on alike and give the same, or stop alike. -/
def HostTask.Alike {α : Type} (d d' : Nat) (t t' : HostTask α) : Prop :=
  ∀ pins w w', World.Level d d' pins w w' →
    t.Matches t' w w' (fun a u a' u' => a' = a ∧ u.Level d d' pins u')
      fun e u e' u' => e.Alike e' ∧ u.Level d d' pins u'

/-- A host function does the same if its calls of function values do: it sees neither heights of
frames nor how many functions are active, and nothing it does depends on the number in an error of
the depth limit. -/
def HostBody.Blind (body : HostBody) : Prop :=
  ∀ (d d' : Nat) (call call' : Invoker),
    (∀ f args, HostTask.Alike d d' (call f args) (call' f args)) →
      ∀ args, HostTask.Alike d d' (body call args) (body call' args)

namespace HostTask.Alike

variable {α β : Type} {d d' : Nat}

theorem pure (a : α) : HostTask.Alike d d' (pure a) (pure a) := fun _ _ _ h => ⟨rfl, h⟩

theorem stop (e : Stop RuntimeError) : HostTask.Alike d d' (throw e : HostTask α) (throw e) :=
  fun _ _ _ h => ⟨.refl e, h⟩

theorem bind {t t' : HostTask α} {f f' : α → HostTask β} (h : HostTask.Alike d d' t t')
    (hf : ∀ a, HostTask.Alike d d' (f a) (f' a)) : HostTask.Alike d d' (t >>= f) (t' >>= f') :=
  fun pins w w' hw => (h pins w w' hw).bind fun a u a' u' ⟨ha, hu⟩ => by
    subst ha
    exact hf a' pins u u' hu

end HostTask.Alike

end StackScript
