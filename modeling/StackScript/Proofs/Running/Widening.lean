import StackScript.Proofs.Running.Limits

/-!
# Wider limits

Under wider limits a call comes out the same, unless a limit stops it (`Machine.widens_call`). That
holds if host functions pass such errors on (`HostBody.Forwards`); one that goes on after a call
that was stopped may well tell the limits apart, so for it `Machine.ReachesNoLimit` says that wider
limits make no difference.
-/

namespace StackScript

/-- The second limits allow for no less. -/
structure Limits.Le (limits limits' : Limits) : Prop where
  callDepth : limits.callDepth ≤ limits'.callDepth
  steps : ∀ most', limits'.steps = some most' → ∃ most, limits.steps = some most ∧ most ≤ most'
  stackSize : limits.stackSize ≤ limits'.stackSize

/-- An error of a limit; or a fault, as there would be if calls had less room than their limit
allows. -/
def Stop.IsCut : Stop RuntimeError → Prop
  | .error e => e.errorClass = .limitExceeded
  | .fault _ => True

namespace Machine

/-- The machine with other limits. -/
def withLimits (m : Machine) (limits : Limits) : Machine := { m with limits }

/-- The task comes out the same however far the limits are widened: it reaches none of them. -/
def ReachesNoLimit {ε σ α : Type} (m : Machine) (t : Machine → Task ε σ α) (s : σ) : Prop :=
  ∀ limits, m.limits.Le limits → (t (m.withLimits limits)).exec s = (t m).exec s

end Machine

/-! ## Tasks -/

namespace Task

variable {σ α β : Type}

/-- The second task comes out as the first one does, unless a limit stops the first one. -/
def Widens (t t' : Task RuntimeError σ α) : Prop :=
  ∀ s, (∃ e u, t.exec s = (.error e, u) ∧ e.IsCut) ∨ t'.exec s = t.exec s

namespace Widens

theorem refl (t : Task RuntimeError σ α) : t.Widens t := fun _ => .inr rfl

theorem bind {t t' : Task RuntimeError σ α} {f f' : α → Task RuntimeError σ β} (h : t.Widens t')
    (hf : ∀ a, (f a).Widens (f' a)) : (t >>= f).Widens (t' >>= f') := fun s => by
  obtain ⟨e, u, ht, he⟩ | ht := h s
  · exact .inl ⟨e, u, exec_bind_error ht, he⟩
  · rw [exec_bind, exec_bind, ht]
    generalize t.exec s = r
    obtain ⟨e | a, u⟩ := r
    · exact .inr rfl
    · exact hf a u

/-- The same first part. -/
theorem andThen {t : Task RuntimeError σ α} {f f' : α → Task RuntimeError σ β}
    (hf : ∀ a, (f a).Widens (f' a)) : (t >>= f).Widens (t >>= f') := (refl t).bind hf

theorem within {t t' : Run α} (h : Widens t t') (name : String) :
    Widens (t.within name) (t'.within name) := fun s => by
  unfold Run.within
  rw [exec_mapError, exec_mapError]
  obtain ⟨e, u, ht, he⟩ | ht := h s
  · rw [ht]
    cases e with
    | error e => exact .inl ⟨_, u, rfl, he⟩
    | fault f => exact .inl ⟨_, u, rfl, he⟩
  · rw [ht]
    exact .inr rfl

theorem onWorld {t t' : HostTask α} (h : t.Widens t') : Widens (Run.onWorld t) (Run.onWorld t') :=
  fun s => by
  have hrun (t : HostTask α) : (Run.onWorld t).exec s =
      ((t.exec s.world).1, ⟨(t.exec s.world).2, s.stack, s.steps, s.depth⟩) := rfl
  rw [hrun, hrun]
  obtain ⟨e, w, ht, he⟩ | ht := h s.world
  · rw [ht]
    exact .inl ⟨e, _, rfl, he⟩
  · rw [ht]
    exact .inr rfl

theorem atDepth {t t' : HostTask α} (h : t.Widens t') (depth : Nat) :
    Widens (HostTask.atDepth depth t) (HostTask.atDepth depth t') := fun w => by
  rw [HostTask.exec_atDepth, HostTask.exec_atDepth]
  obtain ⟨e, u, ht, he⟩ | ht := h (w.publishing depth)
  · rw [ht]
    exact .inl ⟨e, _, rfl, he⟩
  · rw [ht]
    exact .inr rfl

end Widens

end Task

/-- A host function that is stopped where its calls of function values are stopped by a limit, and
does the same where they do the same. -/
def HostBody.Forwards (body : HostBody) : Prop :=
  ∀ call call' : Invoker, (∀ f args, Task.Widens (call f args) (call' f args)) →
    ∀ args, Task.Widens (body call args) (body call' args)

/-! ## Machines -/

namespace Machine

variable {m : Machine} {call call' : Caller}

/-- Calls that come out the same unless a limit stops the first one. -/
def CallerWidens (call call' : Caller) : Prop := ∀ id parent, Task.Widens (call id parent) (call' id parent)

theorem widens_callFresh (hcall : CallerWidens call call') (c : Closure) (args : List Value) :
    Task.Widens (m.callFresh call c args) (m.callFresh call' c args) := fun w => by
  cases hf : m.program.func c.func with
  | error f =>
    unfold callFresh
    rw [hf]
    exact .inr rfl
  | ok f =>
    by_cases hargs : args.length = f.numIn
    · rw [exec_callFresh call c args w hf hargs, exec_callFresh call' c args w hf hargs]
      obtain ⟨e, u, ht, he⟩ | ht := hcall c.func c.parent ⟨w, args.toArray, 0, w.store.hostDepth⟩
      · rw [ht]
        exact .inl ⟨e, u.world, rfl, he⟩
      · rw [ht]
        exact .inr rfl
    · unfold callFresh
      rw [hf]
      simp only [Task.ofChecked, pure_bind, ne_eq]
      rw [if_pos hargs, if_pos hargs]
      exact .inr rfl

theorem widens_invoke (hcall : CallerWidens call call')
    (hbodies : ∀ body ∈ m.natives.bodies, body.Forwards) (room : Nat) (f : FuncValue)
    (args : List Value) : Task.Widens (m.natives.invoke (m.callFresh call) room f args)
      (m.natives.invoke (m.callFresh call') room f args) := by
  induction room generalizing f args with
  | zero => exact .refl _
  | succ room ih =>
    unfold Natives.invoke
    refine .andThen fun _ => ?_
    dsimp only
    split
    · exact .bind (widens_callFresh hcall _ _) fun _ => .refl _
    · rename_i i _
      cases hbody : m.natives.bodies[i]? with
      | none =>
        intro w
        rw [Task.exec_bind, Task.exec_bind]
        exact .inr rfl
      | some body =>
        simp only [Task.expect, pure_bind]
        exact .bind (hbodies body (Array.mem_of_getElem? hbody) _ _ ih args) fun _ => .refl _

theorem widens_callHost (hcall : CallerWidens call call')
    (hbodies : ∀ body ∈ m.natives.bodies, body.Forwards) (f : FuncValue) (name : String)
    (args : List Value) :
    Task.Widens (m.callHost call f name args) (m.callHost call' f name args) := by
  have hinvoke : Task.Widens (m.invoke call f args) (m.invoke call' f args) := by
    unfold invoke
    exact widens_invoke hcall hbodies Natives.hostNesting f args
  unfold callHost
  exact .andThen fun t => .bind ((hinvoke.atDepth t.depth).onWorld.within name) fun _ => .refl _

theorem widens_callClosure (hcall : CallerWidens call call') (c : Closure) (arity : Arity) :
    Task.Widens (m.callClosure call c arity) (m.callClosure call' c arity) := by
  unfold callClosure
  refine .andThen fun f => ?_
  dsimp only
  split <;> exact .andThen fun _ => hcall _ _

theorem widens_callValue (hcall : CallerWidens call call')
    (hbodies : ∀ body ∈ m.natives.bodies, body.Forwards) (v : Value) (arity : Arity) :
    Task.Widens (m.callValue call v arity) (m.callValue call' v arity) := by
  unfold callValue
  split
  · exact widens_callClosure hcall _ _
  · split
    · exact widens_callClosure hcall _ _
    · exact .andThen fun _ => widens_callHost hcall hbodies _ _ _
  · exact .refl _
  · exact .refl _

/-- Only calls can tell limits apart. -/
theorem widens_perform (hcall : CallerWidens call call')
    (hbodies : ∀ body ∈ m.natives.bodies, body.Forwards) (ctx : Nat) (i : Instr) :
    Task.Widens (m.perform call ctx i) (m.perform call' ctx i) := by
  cases i with
  | callFunc index =>
    exact .andThen fun _ => .andThen fun _ => .andThen fun _ => hcall _ _
  | callFuncv field index =>
    exact .andThen fun _ => .andThen fun _ => .andThen fun _ => .andThen fun _ => .andThen fun _ =>
      hcall _ _
  | callNative addr =>
    unfold perform
    dsimp only
    split
    · exact .refl _
    · exact .andThen fun _ => widens_callHost hcall hbodies _ _ _
  | callNativev field addr =>
    unfold perform
    dsimp only
    split
    · exact .refl _
    · exact .andThen fun _ => .andThen fun _ => .andThen fun _ => .andThen fun _ =>
        widens_callHost hcall hbodies _ _ _
  | callClosure arity =>
    refine .andThen fun v => ?_
    split
    · exact widens_callClosure hcall _ _
    · exact .refl _
  | callValue arity => exact .andThen fun _ => widens_callValue hcall hbodies _ _
  | _ => exact .refl _

variable {limits : Limits}

theorem widens_tick (hle : m.limits.Le limits) : Task.Widens m.tick (m.withLimits limits).tick := by
  refine .andThen fun _ => .andThen fun t => ?_
  have hsize : Task.Widens
      (if m.limits.stackSize < t.stack.size then Run.fail (.stackLimit m.limits.stackSize)
        else pure () : Run Unit)
      (if limits.stackSize < t.stack.size then Run.fail (.stackLimit limits.stackSize)
        else pure ()) := by
    by_cases hmost : m.limits.stackSize < t.stack.size
    · rw [if_pos hmost]
      exact fun s => .inl ⟨_, s, rfl, rfl⟩
    · have hle := hle.stackSize
      rw [if_neg hmost, if_neg (by omega)]
      exact .refl _
  dsimp only [withLimits]
  cases hsteps' : limits.steps with
  | none =>
    cases m.limits.steps with
    | none => exact hsize
    | some max =>
      dsimp only
      split
      · exact fun s => .inl ⟨_, s, rfl, rfl⟩
      · exact hsize
  | some max' =>
    obtain ⟨max, hsteps, hmax⟩ := hle.steps max' hsteps'
    rw [hsteps]
    dsimp only
    by_cases hlimit : max < t.steps
    · rw [if_pos hlimit]
      exact fun s => .inl ⟨_, s, rfl, rfl⟩
    · rw [if_neg hlimit, if_neg (show ¬max' < t.steps by omega)]
      exact hsize

/-- Words come out the same if calls do. -/
theorem widens_exec (hle : m.limits.Le limits) (hcall : CallerWidens call call')
    (hbodies : ∀ body ∈ m.natives.bodies, body.Forwards) (ctx stop offset : Nat) :
    Task.Widens (m.exec call ctx stop offset) ((m.withLimits limits).exec call' ctx stop offset) := by
  induction hn : stop - offset generalizing offset with
  | zero =>
    rw [exec, if_neg (by omega), exec, if_neg (by omega)]
    exact .refl _
  | succ n ih =>
    rw [exec, if_pos (by omega), exec.eq_def (m.withLimits limits), if_pos (by omega)]
    refine .bind (widens_tick hle) fun _ => .andThen fun w => ?_
    split
    · exact .refl _
    · refine .bind (?_ : Task.Widens (m.step call ctx _) (m.step call' ctx _)) fun a => ?_
      · unfold step
        split
        · exact .refl _
        · exact .refl _
        · exact .bind (widens_perform hcall hbodies ctx _) fun _ => .refl _
      · cases a with
        | next => exact ih (offset + 1) (by omega)
        | ret r => exact .refl _

theorem widens_descend (hle : m.limits.Le limits) (name : String) :
    Task.Widens (m.descend name) ((m.withLimits limits).descend name) := fun s => by
  have hdepth := hle.callDepth
  rw [exec_descend, exec_descend]
  by_cases hroom : m.limits.callDepth < s.depth + 1
  · rw [if_pos hroom]
    exact .inl ⟨_, _, rfl, rfl⟩
  · rw [if_neg hroom, if_neg (by show ¬limits.callDepth < _; omega)]
    exact .inr rfl

/-- Wider limits do not change how a call comes out that no limit stops. -/
theorem widens_call (hle : m.limits.Le limits)
    (hbodies : ∀ body ∈ m.natives.bodies, body.Forwards) {room room' : Nat} (hroom : room ≤ room') :
    CallerWidens (m.call room) ((m.withLimits limits).call room') := by
  induction room generalizing room' with
  | zero =>
    intro id parent
    unfold Machine.call
    refine .andThen fun f => ?_
    dsimp only
    split
    · intro s
      refine .inl ?_
      rw [Task.exec_bind, exec_descend]
      by_cases hdepth : m.limits.callDepth < s.depth + 1
      · rw [if_pos hdepth]
        exact ⟨_, _, rfl, rfl⟩
      · rw [if_neg hdepth]
        exact ⟨_, _, rfl, trivial⟩
    · exact .refl _
  | succ room ih =>
    obtain ⟨room', rfl⟩ : ∃ k, room' = k + 1 := ⟨room' - 1, by omega⟩
    intro id parent
    unfold Machine.call
    refine .andThen fun f => ?_
    dsimp only
    split
    · refine .bind (widens_descend hle _) fun _ => .bind ?_ fun _ => .refl _
      refine .andThen fun base => .andThen fun frame => .bind ?_ fun _ => .refl _
      exact (widens_exec hle (ih (Nat.le_of_succ_le_succ hroom)) hbodies _ _ _).within _
    · exact .refl _

/-! ## Calls that no limit stops -/

/-- Calls of functions where `depth` are active. -/
def callAt (m : Machine) (depth : Nat) : Caller := m.call (m.limits.callDepth - depth)

theorem widens_callAt (hle : m.limits.Le limits)
    (hbodies : ∀ body ∈ m.natives.bodies, body.Forwards) (depth : Nat) :
    CallerWidens (m.callAt depth) ((m.withLimits limits).callAt depth) :=
  widens_call hle hbodies (Nat.sub_le_sub_right hle.callDepth depth)

theorem reachesNoLimit_of_widens {σ α : Type} {t : Machine → Task RuntimeError σ α} {s : σ}
    (ht : ∀ limits, m.limits.Le limits → (t m).Widens (t (m.withLimits limits)))
    (hs : ∀ e, ((t m).exec s).1 = .error e → ¬e.IsCut) : m.ReachesNoLimit t s := fun limits hle => by
  obtain ⟨e, u, hrun, he⟩ | hrun := ht limits hle s
  · exact absurd he (hs e (congrArg Prod.fst hrun))
  · exact hrun

/-- Where host functions pass errors on, a call from the host that does not end in an error of a
limit reaches none. -/
theorem reachesNoLimit_callFresh (hbodies : ∀ body ∈ m.natives.bodies, body.Forwards) {depth : Nat}
    {c : Closure} {args : List Value} {w : World}
    (h : ∀ e, ((m.callFresh (m.callAt depth) c args).exec w).1 = .error e → ¬e.IsCut) :
    m.ReachesNoLimit (fun m => m.callFresh (m.callAt depth) c args) w :=
  reachesNoLimit_of_widens (fun _ hle => widens_callFresh (widens_callAt hle hbodies depth) c args) h

/-- Where host functions pass errors on, an instruction that does not end in an error of a limit
reaches none. -/
theorem reachesNoLimit_perform (hbodies : ∀ body ∈ m.natives.bodies, body.Forwards)
    {depth ctx : Nat} {i : Instr} {t : Thread}
    (h : ∀ e, ((m.perform (m.callAt depth) ctx i).exec t).1 = .error e → ¬e.IsCut) :
    m.ReachesNoLimit (fun m => m.perform (m.callAt depth) ctx i) t :=
  reachesNoLimit_of_widens (fun _ hle => widens_perform (widens_callAt hle hbodies depth) hbodies ctx i) h

end Machine

end StackScript
