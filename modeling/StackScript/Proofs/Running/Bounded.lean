import Mathlib.Algebra.BigOperators.Intervals
import Mathlib.Algebra.BigOperators.Ring.Finset
import StackScript.Proofs.Running.Assembled

/-!
# Runs are bounded

No word of a function runs twice in one call of it, and a word makes one call at most. So a call that
may nest `n` levels deeper takes at most `L + L ^ 2 + ... + L ^ n` steps in a program of `L` words
(`Machine.spends_call`). The room that calls are given is no bound of its own: calls come out the same
with any more of it (`Machine.call_agrees`). Hence every run ends, whether steps are limited or not
(`Assembled.run_is_bounded`).
-/

namespace StackScript

/-! ## Steps of a task -/

namespace Run

variable {α β : Type} {t : Run α} {n k : Nat}

/-- However the task ends, it has taken at most `n` steps. -/
def Spends (n : Nat) (t : Run α) : Prop := ∀ s, (t.exec s).2.steps ≤ s.steps + n

theorem Quiet.spends (h : t.Quiet) : t.Spends n := fun s => by
  rw [(h.changes s).steps]
  exact Nat.le_add_right _ _

theorem Spends.bind {f : α → Run β} (h : t.Spends n) (hf : ∀ a, (f a).Spends k) :
    (t >>= f).Spends (n + k) := fun s => by
  have hs := h s
  rw [Task.exec_bind]
  generalize t.exec s = r at hs
  obtain ⟨e | a, s'⟩ := r
  · dsimp only at hs ⊢
    omega
  · have := hf a s'
    dsimp only at hs ⊢
    omega

/-- Quiet steps before a task cost nothing. -/
theorem Quiet.andSpends {f : α → Run β} (h : t.Quiet) (hf : ∀ a, (f a).Spends n) :
    (t >>= f).Spends n := by
  have := Spends.bind (n := 0) h.spends hf
  rwa [Nat.zero_add] at this

theorem Spends.mono (h : t.Spends n) (hle : n ≤ k) : t.Spends k := fun s => Nat.le_trans (h s) (by omega)

theorem Spends.within {name : String} (h : t.Spends n) : (t.within name).Spends n := fun s => by
  have hs := h s
  unfold Run.within
  rw [Task.exec_mapError]
  generalize t.exec s = r at hs
  obtain ⟨(e | x) | a, s'⟩ := r <;> exact hs

/-- Nor do quiet steps behind it. -/
theorem Spends.andQuiet {f : α → Run β} (h : t.Spends n) (hf : ∀ a, (f a).Quiet) :
    (t >>= f).Spends n := h.bind (k := 0) fun a => (hf a).spends

end Run

/-- The two tasks do the same to the threads of `I`. -/
def Run.AgreeOn {α : Type} (I : Thread → Prop) (t t' : Run α) : Prop := ∀ s, I s → t.exec s = t'.exec s

/-- No host function calls a function value back. -/
structure Natives.CallNothingBack (n : Natives) : Prop where
  funcs : ∀ f ∈ n.funcs, ∃ i, f.func.callee = .host i
  funcvs : ∀ f ∈ n.funcvs, ∃ i, f.func.callee = .host i
  bodies : ∀ body ∈ n.bodies, ∀ (call call' : Invoker) (args : List Value),
    body call args = body call' args

namespace Machine

variable {m : Machine} {call call' : Caller} {ctx n : Nat}

/-! ## Steps of an instruction -/

/-- Where calls do nothing, an instruction is quiet. -/
theorem quiet_perform_idle (i : Instr) : (m.perform idle ctx i).Quiet := ⟨fun s => by
  have hI : Steady (fun t => s.Quiet t) fun t => s.Quiet t :=
    ⟨fun _ _ hq hs => hs.trans hq, fun _ hs => hs⟩
  have hidle : Keeps idle (fun t => s.Quiet t) fun t => s.Quiet t := fun _ _ _ hs => hs
  have hends : (m.perform idle ctx i).Ensures s _ _ := ensures_perform hI hidle (.refl s) i
  unfold Task.Ensures at hends
  generalize (m.perform idle ctx i).exec s = r at hends ⊢
  obtain ⟨e | a, t⟩ := r <;> exact hends⟩

/-- Every call takes at most `n` steps. -/
def CallerSpends (n : Nat) (call : Caller) : Prop := ∀ id parent, (call id parent).Spends n

theorem spends_callClosure (hcall : CallerSpends n call) (c : Closure) (arity : Arity) :
    (m.callClosure call c arity).Spends n := by
  unfold callClosure
  refine (Run.Quiet.ofChecked _).andSpends fun f => ?_
  dsimp only
  split
  · exact (quiet_packScript ..).andSpends fun _ => hcall _ _
  · exact (Run.Quiet.checkCount ..).andSpends fun _ => hcall _ _

theorem spends_callValue (hcall : CallerSpends n call) (v : Value) (arity : Arity) :
    (m.callValue call v arity).Spends n := by
  unfold callValue
  split
  · exact spends_callClosure hcall _ _
  · split
    · exact spends_callClosure hcall _ _
    · exact ((Run.Quiet.takeArgs ..).bind fun _ => quiet_callHost ..).spends
  · exact (Run.Quiet.fail _).spends
  · exact (Run.Quiet.fail _).spends

/-- An instruction makes one call at most. -/
theorem spends_perform (hcall : CallerSpends n call) (i : Instr) :
    (m.perform call ctx i).Spends n := by
  have hidle : (m.perform idle ctx i).Spends n := (quiet_perform_idle i).spends
  cases i with
  | callFunc index =>
    exact (quiet_tableEntry ..).andSpends fun _ => (Run.Quiet.ofChecked _).andSpends fun _ =>
      (quiet_parentOf _).andSpends fun _ => hcall _ _
  | callFuncv field index =>
    exact (quiet_tableEntry ..).andSpends fun _ => (Run.Quiet.readArity _).andSpends fun _ =>
      (Run.Quiet.ofChecked _).andSpends fun _ => (quiet_packScript ..).andSpends fun _ =>
      (quiet_parentOf _).andSpends fun _ => hcall _ _
  | callClosure arity =>
    refine Run.Quiet.pop.andSpends fun v => ?_
    split
    · exact spends_callClosure hcall _ _
    · exact (Run.Quiet.fail _).spends
  | callValue arity => exact Run.Quiet.pop.andSpends fun v => spends_callValue hcall _ _
  | callNative addr =>
    unfold perform
    dsimp only
    split
    · exact (Run.Quiet.defect _).spends
    · exact ((Run.Quiet.takeArgs ..).bind fun _ => quiet_callHost ..).spends
  | callNativev field addr =>
    unfold perform
    dsimp only
    split
    · exact (Run.Quiet.defect _).spends
    · exact ((Run.Quiet.readArity _).bind fun _ => (Run.Quiet.lastParam ..).bind fun _ =>
        (Run.Quiet.pack ..).bind fun _ => (Run.Quiet.popMany _).bind fun _ =>
        quiet_callHost ..).spends
  | _ => exact hidle

theorem spends_step (hcall : CallerSpends n call) (i : Instr) : (m.step call ctx i).Spends n := by
  unfold step
  split
  · exact (Run.Quiet.pure _).spends
  · exact (Run.Quiet.pure _).spends
  · exact (spends_perform hcall _).andQuiet fun _ => .pure _

theorem spends_tick : m.tick.Spends 1 := fun s => by
  have hcheck (c : Prop) [Decidable c] (e : Cause) (t : Thread) :
      ((if c then Run.fail e else pure () : Run Unit).exec t).2 = t := by
    split <;> rfl
  unfold tick
  rw [Task.exec_bind, Task.exec_modify]
  dsimp only
  rw [Task.exec_bind, Task.exec_get]
  dsimp only
  split
  · split
    · exact Nat.le_refl _
    · rw [hcheck]
  · rw [hcheck]

/-! ## Steps of a function -/

/-- Steps of the words from `offset` up to `stop` where each of them takes at most `n`. A word that is
missing behind the last one of the program is counted once, before the run stops there. -/
def wordSteps (m : Machine) (n stop offset : Nat) : Nat :=
  (min stop m.program.code.size - offset) * n + if m.program.code.size < stop then 1 else 0

/-- Each word takes a step of its own and at most one call. -/
theorem spends_exec (hcall : CallerSpends n call) (stop offset : Nat) :
    (m.exec call ctx stop offset).Spends (m.wordSteps (n + 1) stop offset) := by
  induction hk : stop - offset generalizing offset with
  | zero =>
    rw [exec, if_neg (by omega)]
    exact (Run.Quiet.pure _).spends
  | succ k ih =>
    rw [exec, if_pos (by omega)]
    rcases Nat.lt_or_ge offset m.program.code.size with hlt | hge
    · have hwords : m.wordSteps (n + 1) stop offset =
          1 + (n + m.wordSteps (n + 1) stop (offset + 1)) := by
        unfold wordSteps
        rw [show min stop m.program.code.size - offset =
          min stop m.program.code.size - (offset + 1) + 1 by omega, Nat.add_mul]
        omega
      rw [hwords]
      refine spends_tick.bind fun _ => (Run.Quiet.expect _).andSpends fun w => ?_
      split
      · exact (Run.Quiet.defect _).spends
      · refine (spends_step hcall _).bind fun going => ?_
        cases going with
        | next => exact ih (offset + 1) (by omega)
        | ret _ => exact (Run.Quiet.pure _).spends
    · have hwords : m.wordSteps (n + 1) stop offset = 1 := by
        unfold wordSteps
        rw [if_pos (by omega), show min stop m.program.code.size - offset = 0 by omega, Nat.zero_mul]
      rw [hwords, Array.getElem?_eq_none hge]
      exact spends_tick.andQuiet fun _ => .fault _

/-- Steps of a call that may nest `room` levels deeper, in a program of `words` words. -/
def callSteps (words : Nat) : Nat → Nat
  | 0 => 0
  | room + 1 => words * (callSteps words room + 1)

theorem callSteps_eq_sum (words room : Nat) :
    callSteps words room = ∑ i ∈ Finset.range room, words ^ (i + 1) := by
  induction room with
  | zero => rfl
  | succ room ih =>
    rw [callSteps, ih, Finset.sum_range_succ', Nat.mul_add, Finset.mul_sum]
    simp only [pow_succ', pow_zero, mul_one]

/-- Counting active functions takes no step. -/
theorem descend_andSpends {α : Type} {name : String} {f : Unit → Run α} (hf : (f ()).Spends n) :
    (m.descend name >>= f).Spends n := fun s => by
  have hs := hf { s with depth := s.depth + 1 }
  rw [Task.exec_bind, exec_descend]
  by_cases hdepth : m.limits.callDepth < s.depth + 1
  · rw [if_pos hdepth]
    exact Nat.le_add_right _ _
  · rw [if_neg hdepth]
    exact hs

theorem spends_enter (hcall : CallerSpends n call) (id parent : Nat) (f : FuncInfo)
    (entry stop : Nat) :
    (m.enter call id parent f entry stop).Spends (m.wordSteps (n + 1) stop entry) := by
  unfold enter
  refine Run.Quiet.height.andSpends fun base => (quiet_openFrame ..).andSpends fun frame => ?_
  exact (spends_exec hcall stop entry).within.andQuiet fun _ => quiet_finish ..

/-- No function ends behind the last word. -/
def EndsWithin (p : Program) : Prop := ∀ f ∈ p.funcs, ∀ stop ∈ f.stop, stop ≤ p.code.size

/-- A call takes at most the steps of all words in calls within calls. -/
theorem spends_call (hstops : EndsWithin m.program) (room : Nat) :
    CallerSpends (callSteps m.program.code.size room) (m.call room) := by
  induction room with
  | zero =>
    intro id parent
    unfold Machine.call
    refine (Run.Quiet.ofChecked _).andSpends fun f => ?_
    split
    · exact descend_andSpends (Run.Quiet.fault _).spends
    · exact (Run.Quiet.defect _).spends
  | succ room ih =>
    intro id parent s
    unfold Machine.call
    rw [Task.exec_bind]
    cases hf : m.program.func id with
    | error x => exact Nat.le_add_right _ _
    | ok f =>
      refine (?_ : Run.Spends (callSteps m.program.code.size (room + 1)) _) s
      dsimp only
      split
      · rename_i entry stop _ hstop
        have hle := hstops f (Array.mem_of_getElem? (Program.func_eq_ok.1 hf)) stop hstop
        have hwords : m.wordSteps (callSteps m.program.code.size room + 1) stop entry ≤
            callSteps m.program.code.size (room + 1) := by
          unfold wordSteps
          rw [if_neg (by omega)]
          exact Nat.mul_le_mul_right _ (by omega)
        refine descend_andSpends (((spends_enter ih id parent f entry stop).bind (k := 0)
          fun _ => ?_).mono hwords)
        exact fun _ => Nat.le_refl _
      · exact (Run.Quiet.defect _).spends

/-! ## Room -/

section Room

variable {I E : Thread → Prop}

/-- Calls do the same to the threads of `I`. -/
def CallersAgreeOn (I : Thread → Prop) (call call' : Caller) : Prop :=
  ∀ id parent, Run.AgreeOn I (call id parent) (call' id parent)

theorem Steady.agreeOn_bind {α β : Type} {t : Run α} {f f' : α → Run β} (hI : Steady I E)
    (h : t.Quiet) (hf : ∀ a, Run.AgreeOn I (f a) (f' a)) : Run.AgreeOn I (t >>= f) (t >>= f') :=
  fun s hs => by
    have hquiet := hI.quiet _ _ (h.changes s) hs
    rw [Task.exec_bind, Task.exec_bind]
    generalize t.exec s = r at hquiet
    obtain ⟨e | a, s'⟩ := r
    · rfl
    · exact hf a s' hquiet

/-- A host function that calls nothing back does not depend on what script code does. -/
theorem invoke_of_callNothingBack {n : Natives} (hback : n.CallNothingBack) {f : FuncValue} {i : Nat}
    (hf : f.callee = .host i) (script script' : Closure → List Value → HostTask (List Value))
    (room : Nat) (args : List Value) : n.invoke script room f args = n.invoke script' room f args := by
  cases room with
  | zero => rfl
  | succ room =>
    unfold Natives.invoke
    refine congrArg (_ >>= ·) (funext fun _ => ?_)
    dsimp only
    rw [hf]
    cases hbody : n.bodies[i]? with
    | none =>
      simp only [hbody, Task.expect]
      rfl
    | some body =>
      simp only [hbody, Task.expect, pure_bind]
      rw [hback.bodies body (Array.mem_of_getElem? hbody) _ (n.invoke script' room)]

theorem callHost_eq (hback : m.natives.CallNothingBack) {f : FuncValue} {i : Nat}
    (hf : f.callee = .host i) (name : String) (args : List Value) :
    m.callHost call f name args = m.callHost call' f name args := by
  unfold callHost invoke
  rw [invoke_of_callNothingBack hback hf _ (m.callFresh call')]

theorem agreeOn_callClosure (hI : Steady I E) (hcall : CallersAgreeOn I call call') (c : Closure)
    (arity : Arity) : Run.AgreeOn I (m.callClosure call c arity) (m.callClosure call' c arity) := by
  unfold callClosure
  refine hI.agreeOn_bind (.ofChecked _) fun f => ?_
  dsimp only
  split
  · exact hI.agreeOn_bind (quiet_packScript ..) fun _ => hcall _ _
  · exact hI.agreeOn_bind (.checkCount ..) fun _ => hcall _ _

variable (hI : Steady I E) (hback : m.natives.CallNothingBack) (hcall : CallersAgreeOn I call call')
include hI hback hcall

theorem agreeOn_callValue (v : Value) (arity : Arity) :
    Run.AgreeOn I (m.callValue call v arity) (m.callValue call' v arity) := by
  unfold callValue
  split
  · exact agreeOn_callClosure hI hcall _ _
  · split
    · exact agreeOn_callClosure hI hcall _ _
    · rename_i hf
      refine hI.agreeOn_bind (.takeArgs ..) fun args => ?_
      rw [callHost_eq hback hf]
      exact fun _ _ => rfl
  · exact fun _ _ => rfl
  · exact fun _ _ => rfl

theorem agreeOn_perform (i : Instr) :
    Run.AgreeOn I (m.perform call ctx i) (m.perform call' ctx i) := by
  cases i with
  | callFunc index =>
    exact hI.agreeOn_bind (quiet_tableEntry ..) fun _ => hI.agreeOn_bind (.ofChecked _) fun _ =>
      hI.agreeOn_bind (quiet_parentOf _) fun _ => hcall _ _
  | callFuncv field index =>
    exact hI.agreeOn_bind (quiet_tableEntry ..) fun _ => hI.agreeOn_bind (.readArity _) fun _ =>
      hI.agreeOn_bind (.ofChecked _) fun _ => hI.agreeOn_bind (quiet_packScript ..) fun _ =>
      hI.agreeOn_bind (quiet_parentOf _) fun _ => hcall _ _
  | callClosure arity =>
    refine hI.agreeOn_bind .pop fun v => ?_
    split
    · exact agreeOn_callClosure hI hcall _ _
    · exact fun _ _ => rfl
  | callValue arity => exact hI.agreeOn_bind .pop fun v => agreeOn_callValue hI hback hcall _ _
  | callNative addr =>
    unfold perform
    dsimp only
    split
    · exact fun _ _ => rfl
    · rename_i entry hentry
      obtain ⟨i, hi⟩ := hback.funcs entry (Array.mem_of_getElem? hentry)
      refine hI.agreeOn_bind (.takeArgs ..) fun args => ?_
      rw [callHost_eq hback hi]
      exact fun _ _ => rfl
  | callNativev field addr =>
    unfold perform
    dsimp only
    split
    · exact fun _ _ => rfl
    · rename_i entry hentry
      obtain ⟨i, hi⟩ := hback.funcvs entry (Array.mem_of_getElem? hentry)
      refine hI.agreeOn_bind (.readArity _) fun arity => hI.agreeOn_bind (.lastParam ..) fun last =>
        hI.agreeOn_bind (.pack ..) fun _ => hI.agreeOn_bind (.popMany _) fun args => ?_
      rw [callHost_eq hback hi]
      exact fun _ _ => rfl
  | _ => exact fun _ _ => rfl

end Room

section Room

variable {d h : Nat}

/-- Words do the same where calls do. -/
theorem agreeOn_exec (hback : m.natives.CallNothingBack)
    (hkeeps : Keeps call (m.Counts d h) (m.Stopped h))
    (hcall : CallersAgreeOn (m.Counts d h) call call') (stop offset : Nat) :
    Run.AgreeOn (m.Counts d h) (m.exec call ctx stop offset) (m.exec call' ctx stop offset) := by
  intro s hs
  induction hn : stop - offset generalizing offset s with
  | zero => rw [exec, if_neg (by omega), exec, if_neg (by omega)]
  | succ n ih =>
    rw [exec, if_pos (by omega), exec.eq_def m call', if_pos (by omega)]
    have htick := ensures_tick_counts hs
    rw [Task.exec_bind, Task.exec_bind]
    unfold Task.Ensures at htick
    generalize m.tick.exec s = r at htick
    obtain ⟨e | u, s₁⟩ := r
    · rfl
    refine steady_counts.agreeOn_bind (.expect _) (fun w => ?_) s₁ htick
    split
    · exact fun _ _ => rfl
    rename_i i _
    intro s₂ hs₂
    have hstep : (m.step call ctx i).Ensures s₂ (fun _ => m.Counts d h) fun _ => m.Stopped h := by
      unfold step
      split
      · exact hs₂
      · exact hs₂
      · exact (ensures_perform steady_counts hkeeps hs₂ _).bind fun _ _ hs₃ => hs₃
    have hsame : (m.step call ctx i).exec s₂ = (m.step call' ctx i).exec s₂ := by
      unfold step
      split
      · rfl
      · rfl
      · rw [Task.exec_bind, Task.exec_bind, agreeOn_perform steady_counts hback hcall _ s₂ hs₂]
    rw [Task.exec_bind, Task.exec_bind, ← hsame]
    unfold Task.Ensures at hstep
    generalize (m.step call ctx i).exec s₂ = r at hstep
    obtain ⟨e | going, s₃⟩ := r
    · rfl
    cases going with
    | next => exact ih (offset + 1) s₃ hstep (by omega)
    | ret _ => rfl

/-- Where the limit of the depth is reached, room does not matter. -/
theorem call_agrees_of_full (hfull : m.limits.callDepth ≤ d) (room room' : Nat) :
    CallersAgreeOn (m.Counts d h) (m.call room) (m.call room') := by
  intro id parent s hs
  rw [call.eq_def m room, call.eq_def m room']
  refine steady_counts.agreeOn_bind (.ofChecked _) (fun f => ?_) s hs
  split
  · intro s₁ hs₁
    rw [Task.exec_bind, Task.exec_bind, exec_descend, hs₁.depth, if_pos (by omega)]
  · exact fun _ _ => rfl

theorem agreeOn_enter (hback : m.natives.CallNothingBack)
    (hkeeps : Keeps call (m.Counts d h) (m.Stopped h))
    (hcall : CallersAgreeOn (m.Counts d h) call call') (id parent : Nat) (f : FuncInfo)
    (entry stop : Nat) : Run.AgreeOn (m.Counts d h) (m.enter call id parent f entry stop)
      (m.enter call' id parent f entry stop) := by
  unfold enter
  refine steady_counts.agreeOn_bind .height fun base =>
    steady_counts.agreeOn_bind (quiet_openFrame ..) fun frame s hs => ?_
  have hexec : (m.exec call frame stop entry).exec s = (m.exec call' frame stop entry).exec s :=
    agreeOn_exec hback hkeeps hcall stop entry s hs
  unfold Run.within
  rw [Task.exec_bind, Task.exec_bind, Task.exec_mapError, Task.exec_mapError, hexec]

/-- Where there is room for all the functions that may still be called, more room changes nothing. -/
theorem call_agrees (hback : m.natives.CallNothingBack) {room room' : Nat}
    (hroom : m.limits.callDepth ≤ room + d) (hroom' : m.limits.callDepth ≤ room' + d) :
    CallersAgreeOn (m.Counts d h) (m.call room) (m.call room') := by
  -- The depth goes up as the rooms go down; where one is used up, the limit has been reached.
  induction room generalizing d room' with
  | zero => exact call_agrees_of_full (by omega) 0 room'
  | succ room ih =>
    cases room' with
    | zero => exact call_agrees_of_full (by omega) (room + 1) 0
    | succ room' =>
      intro id parent s hs
      unfold Machine.call
      refine steady_counts.agreeOn_bind (.ofChecked _) (fun f => ?_) s hs
      split
      · rename_i entry stop _ _
        intro s₁ hs₁
        have hnext := ensures_descend hs₁ f.name
        rw [Task.exec_bind, Task.exec_bind]
        unfold Task.Ensures at hnext
        generalize (m.descend f.name).exec s₁ = r at hnext
        obtain ⟨e | u, s₂⟩ := r
        · rfl
        have hnested : CallersAgreeOn (m.Counts (d + 1) h) (m.call room) (m.call room') :=
          ih (by omega) (by omega)
        have henter := agreeOn_enter hback (keeps_call room)
          hnested id parent f entry stop
        dsimp only
        rw [Task.exec_bind, Task.exec_bind, henter s₂ hnext]
      · exact fun _ _ => rfl

end Room

/-! ## Runs -/

/-- Steps of all words in calls within calls down to the limit of the call depth. -/
theorem spends_main (hstops : EndsWithin m.program) :
    (m.exec m.callTop ctx m.program.mainEnd 0).Spends
      (callSteps m.program.code.size (m.limits.callDepth + 1) +
        if m.program.code.size < m.program.mainEnd then 1 else 0) := by
  refine (spends_exec (spends_call hstops m.limits.callDepth) m.program.mainEnd 0).mono ?_
  unfold wordSteps
  exact Nat.add_le_add_right (Nat.mul_le_mul_right _ (by omega)) _

/-- The main body runs the same with more room for calls. -/
theorem exec_main_eq (hback : m.natives.CallNothingBack) {room : Nat}
    (hroom : m.limits.callDepth ≤ room) (w : World) :
    (m.exec (m.call room) ctx m.program.mainEnd 0).exec ⟨w, #[], 0, 0⟩ =
      (m.exec m.callTop ctx m.program.mainEnd 0).exec ⟨w, #[], 0, 0⟩ :=
  agreeOn_exec (d := 0) (h := w.store.hostDepth) hback (keeps_call room)
    (call_agrees hback hroom (Nat.le_refl _)) _ _ _ ⟨rfl, rfl, fun _ _ => Nat.zero_le _⟩

end Machine

/-- What is put together by the operations of an assembly ends no function behind its last word. -/
theorem Assembled.endsWithin {a : Assembly} {mainEnd : Nat} {p : Program} (ha : Assembled a)
    (hp : a.resolve mainEnd = .ok p) : Machine.EndsWithin p := by
  obtain ⟨-, -, code, hcode, rfl⟩ := Assembly.resolve_eq_ok.1 hp
  intro f hf stop hstop
  rw [Assembly.size_of_pointRefs hcode]
  exact (ha.sound.funcs f hf).stop stop hstop

/-- However calls recurse, a run whose host functions call nothing back comes to an end. With calls
down to depth `D` in a program of `L` words it takes no more than `L + L ^ 2 + ... + L ^ (D + 1)`
steps, and one to find a word missing if the main body claims words that are not there. No limit of
steps is needed for that, and the room that calls are given is none: with more of it the run is the
same. -/
theorem Assembled.run_is_bounded {a : Assembly} {mainEnd : Nat} {p : Program} {limits : Limits}
    {n : Natives} {m : Machine} (ha : Assembled a) (hp : a.resolve mainEnd = .ok p)
    (hm : Machine.link p limits n = .ok m) (hback : n.CallNothingBack) (w : World) :
    ∃ (result : Except (Stop RuntimeError) (Option Nat)) (t : Thread),
      (∀ room, limits.callDepth ≤ room →
        (m.exec (m.call room) w.store.frames.size p.mainEnd 0).exec ⟨m.entered w, #[], 0, 0⟩ =
          (result, t)) ∧
      m.run.exec w = (result.map fun _ => w.store.frames.size, t.world) ∧
      t.steps ≤ (∑ i ∈ Finset.range (limits.callDepth + 1), p.code.size ^ (i + 1)) +
        if p.code.size < p.mainEnd then 1 else 0 := by
  obtain ⟨hbuilds, -⟩ := Machine.link_eq_ok.1 hm
  obtain rfl := hbuilds.program
  obtain rfl := hbuilds.limits
  obtain rfl := hbuilds.natives
  have hspends : (m.exec m.callTop w.store.frames.size m.program.mainEnd 0).Spends _ :=
    Machine.spends_main (ha.endsWithin hp)
  refine ⟨_, _, fun room hroom => Machine.exec_main_eq hback hroom _, Machine.exec_run w, ?_⟩
  rw [← Machine.callSteps_eq_sum]
  exact Nat.le_trans (hspends ⟨m.entered w, #[], 0, 0⟩) (Nat.le_of_eq (Nat.zero_add _))

/-- A function that calls itself whatever comes, and a main body that calls it. -/
def Assembly.endless : Asm Unit := do
  let f ← newFunc "f" 0
  callFunc f
  defineFunc f
  callFunc f
  endFunc f

theorem Assembled.endless : Assembled (Assembly.endless.exec .empty).2 :=
  let named := step empty (.newFunc "f" 0) rfl fun _ => nofun
  let called := step named (.callFunc 0) rfl fun _ => nofun
  let defined := step called (.defineFunc 0) rfl fun _ => nofun
  let again := step defined (.callFunc 0) rfl fun _ => nofun
  step again (.endFunc 0) rfl fun _ => nofun

/-- The functions of the universe package call nothing back. -/
theorem Registry.callNothingBack_withUniverse : withUniverse.natives.CallNothingBack := by
  have hnatives : withUniverse.natives = ⟨#[⟨"", "len", Universe.len.sig, .host 2⟩],
      #[⟨"", "print", Universe.print.sig, .host 0⟩, ⟨"", "println", Universe.println.sig, .host 1⟩],
      #[], #[Universe.print.body, Universe.println.body, Universe.len.body]⟩ := rfl
  rw [hnatives]
  refine ⟨?_, ?_, ?_⟩
  · simp
  · simp
  · simp [Adapted.body]

/-- Endless recursion ends at the limit of the call depth, with no limit of steps. -/
theorem Assembled.endless_run_is_bounded :
    ∃ p m, (Assembly.endless.exec .empty).2.resolve 1 = .ok p ∧
      Machine.link p { callDepth := 3, verifyStack := false } Registry.withUniverse.natives = .ok m ∧
      Registry.withUniverse.natives.CallNothingBack ∧
      ∃ (result : Except (Stop RuntimeError) (Option Nat)) (t : Thread),
        m.run.exec default = (result.map fun _ => 0, t.world) ∧ t.steps ≤ 2 + 4 + 8 + 16 := by
  have hmain : 1 ≤ (Assembly.endless.exec .empty).2.code.size := by decide
  obtain ⟨m, hm⟩ : ∃ m, Machine.Builds _ { callDepth := 3, verifyStack := false }
      Registry.withUniverse.natives m :=
    Machine.exists_builds (Assembled.endless.sound.program hmain rfl)
  have hlink := Machine.link_eq_ok.2 ⟨hm, nofun⟩
  obtain ⟨result, t, -, hrun, hsteps⟩ := Assembled.run_is_bounded Assembled.endless rfl hlink
    Registry.callNothingBack_withUniverse default
  exact ⟨_, m, rfl, hlink, Registry.callNothingBack_withUniverse, result, t, hrun, hsteps⟩

end StackScript
