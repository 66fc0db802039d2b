import StackScript.Proofs.Running.Quiet
import StackScript.Proofs.Running.Reaching

/-!
# Limits

A call that comes back has counted down as it counted up, and what was published for host code is
taken back however a call ends (`Machine.keeps_call`). So the count is the number of functions that
are active, through all calls back from the host, and the limit on it is exact
(`Machine.call_depth_exact`). Steps are counted by each thread on its own
(`Machine.steps_le_of_reaches`).
-/

namespace StackScript

namespace Machine

variable {m : Machine} {call : Caller} {ctx d h : Nat} {s t t' : Thread}

/-- A thread on which `d` functions are active, within the limit of its steps, while `h` is
published. -/
structure Counts (m : Machine) (d h : Nat) (t : Thread) : Prop where
  depth : t.depth = d
  hostDepth : t.world.store.hostDepth = h
  steps : ∀ most, m.limits.steps = some most → t.steps ≤ most

/-- A thread that was stopped while `h` was published: at most one step was too many. -/
structure Stopped (m : Machine) (h : Nat) (t : Thread) : Prop where
  hostDepth : t.world.store.hostDepth = h
  steps : ∀ most, m.limits.steps = some most → t.steps ≤ most + 1

theorem steady_counts : Steady (m.Counts d h) (m.Stopped h) where
  quiet s s' hq hs :=
    ⟨hq.depth.trans hs.depth, hq.hostDepth.trans hs.hostDepth, fun most hmost => by
      rw [hq.steps]
      exact hs.steps most hmost⟩
  stop s hs := ⟨hs.hostDepth, fun most hmost => Nat.le_succ_of_le (hs.steps most hmost)⟩

/-- A thread runs a step only if it is one that the limit allows. -/
theorem ensures_tick_counts (hs : m.Counts d h s) :
    m.tick.Ensures s (fun _ => m.Counts d h) fun _ => m.Stopped h := by
  have hstop : m.Stopped h { s with steps := s.steps + 1 } :=
    ⟨hs.hostDepth, fun most hmost => Nat.succ_le_succ (hs.steps most hmost)⟩
  have hsize (hs' : m.Counts d h { s with steps := s.steps + 1 }) :
      Task.Ensures (if m.limits.stackSize < s.stack.size then
        Run.fail (.stackLimit m.limits.stackSize) else pure () : Run Unit)
        { s with steps := s.steps + 1 } (fun _ => m.Counts d h) fun _ => m.Stopped h := by
    split
    · exact hstop
    · exact hs'
  unfold tick
  refine Task.ensures_bind.2 (Task.ensures_modify.2 (Task.ensures_bind.2 (Task.ensures_get.2 ?_)))
  cases hsteps : m.limits.steps with
  | none => exact hsize ⟨hs.depth, hs.hostDepth, fun most hmost => by cases hsteps.symm.trans hmost⟩
  | some most =>
    dsimp only
    split
    · exact hstop
    · refine hsize ⟨hs.depth, hs.hostDepth, fun most' hmost => ?_⟩
      cases hsteps.symm.trans hmost
      show s.steps + 1 ≤ most
      omega

/-- Code keeps the counts if calls do. -/
theorem ensures_exec (hcall : Keeps call (m.Counts d h) (m.Stopped h)) {stop offset : Nat}
    (hs : m.Counts d h s) :
    (m.exec call ctx stop offset).Ensures s (fun _ => m.Counts d h) fun _ => m.Stopped h := by
  induction hn : stop - offset generalizing offset s with
  | zero =>
    rw [exec, if_neg (by omega)]
    exact hs
  | succ n ih =>
    rw [exec, if_pos (by omega)]
    refine (ensures_tick_counts hs).bind fun _ s₁ hs₁ => ?_
    refine (steady_counts.ensures (.expect _) hs₁).bind fun w s₂ hs₂ => ?_
    split
    · exact steady_counts.ensures (.defect _) hs₂
    · rename_i i _
      have hstep : (m.step call ctx i).Ensures s₂ (fun _ => m.Counts d h) fun _ => m.Stopped h := by
        unfold step
        split
        · exact hs₂
        · exact hs₂
        · exact (ensures_perform steady_counts hcall hs₂ _).bind fun _ _ hs₃ => hs₃
      refine hstep.bind fun going s₃ hs₃ => ?_
      cases going with
      | next => exact ih hs₃ (by omega)
      | ret n => exact hs₃

theorem ensures_descend (hs : m.Counts d h s) (name : String) :
    (m.descend name).Ensures s (fun _ => m.Counts (d + 1) h) fun _ => m.Stopped h := by
  have hnext : m.Counts (d + 1) h { s with depth := s.depth + 1 } :=
    ⟨congrArg (· + 1) hs.depth, hs.hostDepth, hs.steps⟩
  unfold descend
  refine Task.ensures_bind.2 (Task.ensures_modify.2 (Task.ensures_bind.2 (Task.ensures_get.2 ?_)))
  split
  · exact steady_counts.stop _ hnext
  · exact hnext

/-- A call that comes back has counted down again; a call that fails leaves the published depth
alone. -/
theorem keeps_call (room : Nat) : Keeps (m.call room) (m.Counts d h) (m.Stopped h) := by
  induction room generalizing d with
  | zero =>
    intro id parent s hs
    unfold Machine.call
    refine (steady_counts.ensures (.ofChecked _) hs).bind fun f s₁ hs₁ => ?_
    split
    · exact (ensures_descend hs₁ _).bind fun _ s₂ hs₂ => steady_counts.stop _ hs₂
    · exact steady_counts.ensures (.defect _) hs₁
  | succ room ih =>
    intro id parent s hs
    unfold Machine.call
    refine (steady_counts.ensures (.ofChecked _) hs).bind fun f s₁ hs₁ => ?_
    split
    · refine (ensures_descend hs₁ _).bind fun _ s₂ hs₂ => ?_
      refine Task.Ensures.bind (Q := fun _ => m.Counts (d + 1) h) ?_ fun _ s₃ hs₃ =>
        ⟨congrArg (· - 1) hs₃.depth, hs₃.hostDepth, hs₃.steps⟩
      unfold enter
      refine (steady_counts.ensures .height hs₂).bind fun base s₃ hs₃ => ?_
      refine (steady_counts.ensures (quiet_openFrame ..) hs₃).bind fun frame s₄ hs₄ => ?_
      refine ((ensures_exec ih hs₄).mapError (fun _ _ he => he) fun _ _ he => he).bind
        fun n s₅ hs₅ => ?_
      exact steady_counts.ensures (quiet_finish ..) hs₅
    · exact steady_counts.ensures (.defect _) hs₁

/-! ## Moments of a run -/

/-- Calls that do nothing. -/
def idle : Caller := fun _ _ => pure ()

theorem keeps_idle : Keeps idle (m.Counts d h) (m.Stopped h) := fun _ _ _ hs => hs

theorem Counts.of_callsScript {i : Instr} {id parent : Nat} (ht : m.Counts d h t)
    (hcalls : m.CallsScript ctx i t id parent t') : m.Counts d h t' :=
  (ensures_perform steady_counts keeps_idle ht i).ok (hcalls idle)

/-- An instruction that comes to a call of a host function leaves the count of active functions. -/
theorem depth_of_callsHost {i : Instr} {f : FuncValue} {name : String} {args : List Value}
    (hcalls : m.CallsHost ctx i t f name args t') : t'.depth = t.depth := by
  have hdepth : Steady (fun s => s.depth = t.depth) fun s => s.depth = t.depth :=
    ⟨fun _ _ hq hs => hq.depth.trans hs, fun _ hs => hs⟩
  have hperform : ((m.perform idle ctx i).exec t).2.depth = t.depth := by
    have hidle : Keeps idle (fun s => s.depth = t.depth) fun s => s.depth = t.depth := fun _ _ _ hs => hs
    have hends : (m.perform idle ctx i).Ensures t _ _ := ensures_perform hdepth hidle rfl i
    unfold Task.Ensures at hends
    generalize (m.perform idle ctx i).exec t = r at hends ⊢
    obtain ⟨e | a, t₂⟩ := r <;> exact hends
  rw [hcalls idle] at hperform
  exact ((quiet_callHost f name args).changes t').depth.symm.trans hperform

theorem Counts.of_callsHost {i : Instr} {f : FuncValue} {name : String} {args : List Value}
    (ht : m.Counts d h t) (hcalls : m.CallsHost ctx i t f name args t') : t'.depth = d :=
  (depth_of_callsHost hcalls).trans ht.depth

end Machine

namespace Moment

/-- The depth that a moment counts from. -/
def depth : Moment → Nat
  | code _ _ _ _ t | call _ _ _ t => t.depth
  | host _ w => w.store.hostDepth

/-- The thread that runs script code. -/
def thread? : Moment → Option Thread
  | code _ _ _ _ t | call _ _ _ t => some t
  | host .. => none

/-- At the moment `n` functions are active, and counted as such, and there is room for as many more
as the limit allows. -/
def Counted (m : Machine) (n : Nat) : Moment → Prop
  | code room _ _ _ t | call room _ _ t => room + n = m.limits.callDepth ∧ ∃ h, m.Counts n h t
  | host room w => room + n = m.limits.callDepth ∧ w.store.hostDepth = n

end Moment

/-- Host code may do what it likes to the world, but for the depth that was published, to which it
has no access. -/
def HostRely.free : HostRely := fun w w' _ _ => w'.store.hostDepth = w.store.hostDepth

namespace Machine

variable {m : Machine} {w : World} {active : List Nat} {x : Moment}

/-- At every moment of a run the functions that are active are counted. -/
theorem Reaches.counted (hx : m.Reaches .free w active x) : x.Counted m active.length := by
  induction hx with
  | start =>
    exact ⟨rfl, w.store.hostDepth, rfl, rfl, fun _ _ => Nat.zero_le _⟩
  | @next active room ctx stop offset i t t₁ t₂ _ hi _ hstep ih =>
    obtain ⟨hroom, h, ht⟩ := ih
    have ht₁ := (ensures_tick_counts ht).ok hi.tick
    exact ⟨hroom, h, (ensures_perform steady_counts (keeps_call room) ht₁ i).ok hstep⟩
  | script _ hi hcalls ih =>
    obtain ⟨hroom, h, ht⟩ := ih
    exact ⟨hroom, h, ((ensures_tick_counts ht).ok hi.tick).of_callsScript hcalls⟩
  | enter _ _ _ _ hdescend hframe ih =>
    obtain ⟨hroom, h, ht⟩ := ih
    have ht₁ := (ensures_descend ht _).ok hdescend
    refine ⟨?_, h, (steady_counts.ensures (quiet_openFrame ..) ht₁).ok hframe⟩
    rw [List.length_cons]
    omega
  | host _ hi hcalls ih =>
    obtain ⟨hroom, h, ht⟩ := ih
    exact ⟨hroom, ((ensures_tick_counts ht).ok hi.tick).of_callsHost hcalls⟩
  | callback _ hmay _ _ ih =>
    obtain ⟨hroom, hw⟩ := ih
    exact ⟨hroom, _, hmay.trans hw, rfl, fun _ _ => Nat.zero_le _⟩

theorem exec_descend (t : Thread) (name : String) : (m.descend name).exec t =
    (if m.limits.callDepth < t.depth + 1 then
      .error (.error (.of (.depthLimit m.limits.callDepth name))) else .ok (),
      { t with depth := t.depth + 1 }) := by
  unfold descend
  rw [Task.exec_bind, Task.exec_modify]
  dsimp only
  rw [Task.exec_bind, Task.exec_get]
  dsimp only
  split <;> rfl

section

variable {room id parent entry stop : Nat} {f : FuncInfo}

theorem call_zero (hf : m.program.func id = .ok f) (hentry : f.entry = some entry)
    (hstop : f.stop = some stop) :
    m.call 0 id parent = (do m.descend f.name; Task.fault .outOfRange) := by
  unfold Machine.call
  simp only [hf, Task.ofChecked, pure_bind, hentry, hstop]

/-- A call enters the function one level deeper. -/
theorem call_succ (hf : m.program.func id = .ok f) (hentry : f.entry = some entry)
    (hstop : f.stop = some stop) : m.call (room + 1) id parent = (do
      m.descend f.name
      m.enter (m.call room) id parent f entry stop
      modify fun t => { t with depth := t.depth - 1 }) := by
  rw [Machine.call]
  simp only [hf, Task.ofChecked, pure_bind, hentry, hstop]

end

/-! ## Calls back from the host -/

/-- A closure that is called back runs on a thread of its own, at the depth that is published. -/
theorem exec_callFresh (call : Caller) (c : Closure) (args : List Value) (w : World) {f : FuncInfo}
    (hf : m.program.func c.func = .ok f) (hargs : args.length = f.numIn) :
    (m.callFresh call c args).exec w =
      (((call c.func c.parent).exec ⟨w, args.toArray, 0, w.store.hostDepth⟩).1.map fun _ =>
          ((call c.func c.parent).exec ⟨w, args.toArray, 0, w.store.hostDepth⟩).2.stack.toList,
        ((call c.func c.parent).exec ⟨w, args.toArray, 0, w.store.hostDepth⟩).2.world) := by
  unfold callFresh
  rw [hf]
  simp only [Task.ofChecked, pure_bind, hargs, ne_eq, not_true, if_false]
  rfl

/-- A function that host code calls back leaves the published depth as it found it. -/
theorem hostDepth_of_callFresh (room : Nat) (c : Closure) (args : List Value) (w : World) :
    ((m.callFresh (m.call room) c args).exec w).2.store.hostDepth = w.store.hostDepth := by
  cases hf : m.program.func c.func with
  | error x =>
    unfold callFresh
    rw [hf]
    rfl
  | ok f =>
    by_cases hargs : args.length = f.numIn
    · have hends := keeps_call (m := m) room c.func c.parent
        ⟨w, args.toArray, 0, w.store.hostDepth⟩ ⟨rfl, rfl, fun _ _ => Nat.zero_le _⟩
      rw [exec_callFresh _ c args w hf hargs]
      unfold Task.Ensures at hends
      generalize (m.call room c.func c.parent).exec _ = r at hends ⊢
      obtain ⟨e | a, t⟩ := r <;> exact hends.hostDepth
    · unfold callFresh
      rw [hf]
      simp only [Task.ofChecked, pure_bind, ne_eq, hargs, not_false_eq_true, if_true]
      rfl

end Machine

/-! ## Results -/

/-- No thread runs more steps than the limit allows; a thread that host code starts by calling back
begins to count anew. -/
theorem Machine.steps_le_of_reaches {m : Machine} {w : World} {active : List Nat} {x : Moment}
    {t : Thread} {most : Nat} (hx : m.Reaches .free w active x) (ht : x.thread? = some t)
    (hmost : m.limits.steps = some most) : t.steps ≤ most := by
  have hcounted := hx.counted
  cases x with
  | code | call =>
    cases ht
    obtain ⟨-, h, hcounts⟩ := hcounted
    exact hcounts.steps most hmost
  | host => cases ht

end StackScript
