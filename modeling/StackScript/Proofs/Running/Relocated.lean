import StackScript.Proofs.Balance.Orderly
import StackScript.Proofs.Running.Shifted
import StackScript.Proofs.Running.Widening

/-!
# Calls on another stack

The functions of a program whose code keeps to its own parameters and results run alike above
whatever values (`Machine.callersBeside_call`): induction over the room that calls have, and within
one function over its words.
-/

namespace StackScript

/-- The limits allow for as many steps as may be and for the same number of values, and depths
differ as `d` and `d'` do. -/
structure Limits.Level (d d' most : Nat) (limits limits' : Limits) : Prop where
  steps : limits.steps = none
  steps' : limits'.steps = none
  stackSize : limits.stackSize = most
  stackSize' : limits'.stackSize = most
  depth : limits.callDepth + d' = limits'.callDepth + d

theorem Limits.Level.succ {d d' most : Nat} {limits limits' : Limits}
    (h : limits.Level d d' most limits') : limits.Level (d + 1) (d' + 1) most limits' where
  steps := h.steps
  steps' := h.steps'
  stackSize := h.stackSize
  stackSize' := h.stackSize'
  depth := by
    have := h.depth
    omega

namespace Machine

variable {m : Machine} {x : Shift} {pins : List Pin} {s s' : Thread} {call call' : Caller} {ctx : Nat}

open Run

theorem beside_parentOf (hs : s.Beside x pins s') (f : FuncInfo) :
    Agree x pins (parentOf f ctx) (parentOf f ctx) s s' := by
  unfold parentOf
  split
  · exact .get (.pure hs (hs.world.store.root ctx))
  · exact .pure hs rfl

/-- What is read off a frame that is in both stores. -/
theorem beside_frame {α : Type} {frame : Nat} {k k' : Frame → Run α} (hs : s.Beside x pins s')
    (hk : ∀ f f' : Frame, f'.func = f.func → f'.vars = f.vars → Agree x pins (k f) (k' f') s s') :
    Agree x pins (Task.expect s.world.store.frames[frame]? >>= k)
      (Task.expect s'.world.store.frames[frame]? >>= k') s s' := by
  cases hf : s.world.store.frames[frame]? with
  | none =>
    rw [hs.world.store.frame_none hf]
    exact .stop (.refl _) hs.world
  | some f =>
    obtain ⟨f', hf', hfunc, -, hvars⟩ := hs.world.store.frame hf
    rw [hf']
    exact hk f f' hfunc hvars

theorem beside_varType (hs : s.Beside x pins s') (frame index : Nat) :
    Agree x pins (m.varType frame index) (m.varType frame index) s s' := by
  unfold varType
  refine .get (beside_frame hs fun f f' hfunc _ => ?_)
  rw [hfunc]
  dsimp only
  split
  on_goal 1 =>
    refine (Beside.ofChecked hs _).andThen fun g u u' hs => ?_
    refine Beside.andThen (.pure (a := g.vars) hs rfl) fun vars u u' hs => ?_
  on_goal 2 => refine Beside.andThen (.pure (a := m.program.mainVars) hs rfl) fun vars u u' hs => ?_
  all_goals
    split
    · exact (Beside.ofChecked hs _).andThen fun _ _ _ hu => .pure hu rfl
    · exact .defect hs _

theorem beside_tableEntry (hs : s.Beside x pins s') (variadic : Bool) (index : Nat) :
    Agree x pins (m.tableEntry variadic index) (m.tableEntry variadic index) s s' := by
  unfold tableEntry
  split
  · exact .defect hs _
  · exact .pure hs rfl

theorem beside_makeClosure (hs : s.Beside x pins s') (variadic : Bool) (index : Nat) :
    Agree x pins (m.makeClosure ctx variadic index) (m.makeClosure ctx variadic index) s s' := by
  unfold makeClosure
  split
  · exact .defect hs _
  · exact (Beside.ofChecked hs _).andThen fun f _ _ hu => (beside_parentOf hu f).andThen
      fun _ _ _ hu => (Beside.ofChecked hu _).andThen fun _ _ _ hu =>
      (Beside.allocate hu id (fun _ => rfl) rfl).andThen
      fun _ _ _ hu => .pure hu rfl

theorem beside_packScript (hs : s.Beside x pins s') (f : FuncInfo) (arity : Arity) :
    Agree x pins (packScript f arity) (packScript f arity) s s' :=
  (Beside.lastParam hs ..).andThen fun _ _ _ hu => .pack hu ..

/-! ### Calls -/

/-- Calls stay beside each other above whatever values, and take back what they publish. -/
structure CallersBeside (m : Machine) (d d' most : Nat) (call call' : Caller) : Prop where
  beside : ∀ below pins id parent s s', s.Beside ⟨below, d, d', most⟩ pins s' →
    Agree ⟨below, d, d', most⟩ pins (call id parent) (call' id parent) s s'
  keeps : ∀ c args w, ((m.callFresh call c args).exec w).2.store.hostDepth = w.store.hostDepth
  keeps' : ∀ c args w, ((m.callFresh call' c args).exec w).2.store.hostDepth = w.store.hostDepth

variable {d d' most : Nat} {below : Stack}

theorem alike_callFresh (hcall : m.CallersBeside d d' most call call') (c : Closure)
    (args : List Value) :
    HostTask.Alike d d' (m.callFresh call c args) (m.callFresh call' c args) := by
  intro pins w w' hw
  have hkeeps := hcall.keeps c args w
  have hkeeps' := hcall.keeps' c args w'
  cases hf : m.program.func c.func with
  | error f =>
    unfold callFresh
    rw [hf]
    exact ⟨.refl _, hw⟩
  | ok f =>
    by_cases hargs : args.length = f.numIn
    · have hends : Agree ⟨#[], d, d', most⟩ pins (call c.func c.parent) (call' c.func c.parent)
          ⟨w, args.toArray, 0, w.store.hostDepth⟩ ⟨w', args.toArray, 0, w'.store.hostDepth⟩ :=
        hcall.beside #[] pins _ _ _ _ ⟨hw.alike, Array.empty_append.symm, hw.depth, hw.depth'⟩
      unfold Task.Matches
      rw [exec_callFresh call c args w hf hargs] at hkeeps ⊢
      rw [exec_callFresh call' c args w' hf hargs] at hkeeps' ⊢
      unfold Agree Beside at hends
      generalize (call c.func c.parent).exec _ = r, (call' c.func c.parent).exec _ = r'
        at hends hkeeps hkeeps' ⊢
      have hd : r.2.world.store.hostDepth = d := hkeeps.trans hw.depth
      have hd' : r'.2.world.store.hostDepth = d' := hkeeps'.trans hw.depth'
      cases hends with
      | ok hu h => exact ⟨congrArg Array.toList (hu.stack.trans Array.empty_append), hu.world, hd, hd'⟩
      | stop he hu => exact ⟨he, hu, hd, hd'⟩
      | starves hbelow => exact absurd rfl hbelow
      | crowds hbelow => exact absurd rfl hbelow
    · unfold callFresh
      rw [hf]
      simp only [Task.ofChecked, pure_bind, ne_eq]
      rw [if_pos hargs, if_pos hargs]
      exact ⟨.refl _, hw⟩

/-- Host functions do not see how they were reached. -/
theorem alike_invoke (hcall : m.CallersBeside d d' most call call')
    (hblind : ∀ body ∈ m.natives.bodies, body.Blind) (room : Nat) (f : FuncValue)
    (args : List Value) :
    HostTask.Alike d d' (m.natives.invoke (m.callFresh call) room f args)
      (m.natives.invoke (m.callFresh call') room f args) := by
  induction room generalizing f args with
  | zero => exact .stop _
  | succ room ih =>
    unfold Natives.invoke
    cases Natives.checkArgs f.sig args with
    | error c => exact .stop _
    | ok u =>
      have counted {t t' : HostTask (List Value)} (ht : HostTask.Alike d d' t t') :
          HostTask.Alike d d' (do
            let results ← t
            if results.length ≠ f.sig.results.length then
              HostTask.fail (.resultCount results.length f.sig.results.length)
            return results) (do
            let results ← t'
            if results.length ≠ f.sig.results.length then
              HostTask.fail (.resultCount results.length f.sig.results.length)
            return results) := by
        refine ht.bind fun results => ?_
        split
        · exact .stop _
        · exact .pure _
      obtain ⟨sig, i | c⟩ := f
      · refine (HostTask.Alike.pure u).bind fun _ => ?_
        dsimp only
        cases hbody : m.natives.bodies[i]? with
        | none => exact fun pins w w' hw => ⟨.refl _, hw⟩
        | some body =>
          exact counted (hblind body (Array.mem_of_getElem? hbody) d d' _ _ ih args)
      · exact counted (alike_callFresh hcall c args)

theorem beside_callHost (hcall : m.CallersBeside d d' most call call')
    (hblind : ∀ body ∈ m.natives.bodies, body.Blind) (f : FuncValue) (name : String)
    (args : List Value) (hs : s.Beside ⟨below, d, d', most⟩ pins s') :
    Agree ⟨below, d, d', most⟩ pins (m.callHost call f name args) (m.callHost call' f name args)
      s s' := by
  unfold callHost
  refine .get (((Beside.onWorld hs ?_).within name).andThen fun vs _ _ hu => .pushAll hu vs)
  have hends := alike_invoke hcall hblind Natives.hostNesting f args pins _ _
    ⟨hs.world.publishing s.depth s'.depth, hs.depth, hs.depth'⟩
  unfold Task.Matches at hends ⊢
  rw [HostTask.exec_atDepth, HostTask.exec_atDepth]
  unfold invoke
  generalize (m.natives.invoke (m.callFresh call) Natives.hostNesting f args).exec _ = r,
    (m.natives.invoke (m.callFresh call') Natives.hostNesting f args).exec _ = r' at hends ⊢
  obtain ⟨e | vs, w⟩ := r <;> obtain ⟨e' | vs', w'⟩ := r'
  · exact ⟨hends.1, hends.2.alike.publishing ..⟩
  · exact hends.elim
  · exact hends.elim
  · exact ⟨hends.2.alike.publishing .., hends.1⟩

theorem beside_callClosure (hcall : m.CallersBeside d d' most call call') (c : Closure)
    (arity : Arity) (hs : s.Beside ⟨below, d, d', most⟩ pins s') :
    Agree ⟨below, d, d', most⟩ pins (m.callClosure call c arity) (m.callClosure call' c arity)
      s s' := by
  unfold callClosure
  refine (Beside.ofChecked hs _).andThen fun f u u' hu => ?_
  split
  · exact (beside_packScript hu ..).andThen fun _ _ _ hu => hcall.beside _ _ _ _ _ _ hu
  · exact (Beside.checkCount hu ..).andThen fun _ _ _ hu => hcall.beside _ _ _ _ _ _ hu

theorem beside_callValue (hcall : m.CallersBeside d d' most call call')
    (hblind : ∀ body ∈ m.natives.bodies, body.Blind) (v : Value) (arity : Arity)
    (hs : s.Beside ⟨below, d, d', most⟩ pins s') :
    Agree ⟨below, d, d', most⟩ pins (m.callValue call v arity) (m.callValue call' v arity) s s' := by
  unfold callValue
  split
  · exact beside_callClosure hcall _ _ hs
  · split
    · exact beside_callClosure hcall _ _ hs
    · exact (Beside.takeArgs hs ..).andThen fun _ _ _ hu => beside_callHost hcall hblind _ _ _ hu
  · exact .fail hs _
  · exact .fail hs _

/-! ### Instructions -/

section

variable {index addr : Nat}

theorem beside_pushConst (hs : s.Beside x pins s') :
    Agree x pins (m.perform call ctx (.pushConst index)) (m.perform call' ctx (.pushConst index)) s s' := by
  unfold perform
  dsimp only
  split
  · exact .push hs _
  · exact .defect hs _

theorem beside_addrOp {k : Option Kind} {op : Option AddressOperator} (hs : s.Beside x pins s') :
    Agree x pins (m.perform call ctx (.addrOp k op)) (m.perform call' ctx (.addrOp k op)) s s' := by
  unfold perform
  dsimp only
  split
  · exact (Beside.pop hs).andThen fun v _ _ hu => (Beside.pointee hu v).andThen
      fun _ _ _ hu => .applyAddress hu ..
  · exact .defect hs _

theorem beside_loadNativeVar (hs : s.Beside x pins s') :
    Agree x pins (m.perform call ctx (.loadNativeVar addr)) (m.perform call' ctx (.loadNativeVar addr))
      s s' := by
  unfold perform
  dsimp only
  split
  · exact (Beside.load hs _).andThen fun _ _ _ hu => .push hu _
  · exact .defect hs _

theorem beside_builtinOp {k : Option Kind} {op : Option Operator} (hs : s.Beside x pins s') :
    Agree x pins (m.perform call ctx (.builtinOp k op)) (m.perform call' ctx (.builtinOp k op)) s s' := by
  unfold perform
  dsimp only
  split
  · exact (Beside.pop hs).andThen fun _ _ _ hu => (Beside.pop hu).andThen fun _ _ _ hu =>
      (Beside.evaluate hu ..).andThen fun _ _ _ hu => .push hu _
  · exact .defect hs _

theorem beside_callNative (hcall : m.CallersBeside d d' most call call')
    (hblind : ∀ body ∈ m.natives.bodies, body.Blind) (hs : s.Beside ⟨below, d, d', most⟩ pins s') :
    Agree ⟨below, d, d', most⟩ pins (m.perform call ctx (.callNative addr))
      (m.perform call' ctx (.callNative addr)) s s' := by
  unfold perform
  dsimp only
  split
  · exact .defect hs _
  · exact (Beside.takeArgs hs ..).andThen fun _ _ _ hu => beside_callHost hcall hblind _ _ _ hu

theorem beside_callNativev (hcall : m.CallersBeside d d' most call call')
    (hblind : ∀ body ∈ m.natives.bodies, body.Blind) {field : ArityField}
    (hs : s.Beside ⟨below, d, d', most⟩ pins s') :
    Agree ⟨below, d, d', most⟩ pins (m.perform call ctx (.callNativev field addr))
      (m.perform call' ctx (.callNativev field addr)) s s' := by
  unfold perform
  dsimp only
  split
  · exact .defect hs _
  · exact (Beside.readArity hs _).andThen fun _ _ _ hu => (Beside.lastParam hu ..).andThen
      fun _ _ _ hu => (Beside.pack hu ..).andThen fun _ _ _ hu => (Beside.popMany hu _).andThen
      fun _ _ _ hu => beside_callHost hcall hblind _ _ _ hu

theorem beside_pushNative (hs : s.Beside x pins s') :
    Agree x pins (m.perform call ctx (.pushNative addr)) (m.perform call' ctx (.pushNative addr)) s s' := by
  unfold perform
  dsimp only
  split
  · exact .defect hs _
  · exact .push hs _

theorem beside_pushNativev (hs : s.Beside x pins s') :
    Agree x pins (m.perform call ctx (.pushNativev addr)) (m.perform call' ctx (.pushNativev addr))
      s s' := by
  unfold perform
  dsimp only
  split
  · exact .defect hs _
  · exact .push hs _

theorem beside_field (hs : s.Beside x pins s') :
    Agree x pins (m.perform call ctx (.field index)) (m.perform call' ctx (.field index)) s s' := by
  refine (Beside.pop hs).andThen fun v _ _ hu => ?_
  split
  · split
    · exact .push hu _
    · exact .defect hu _
  · exact .fail hu _

end

/-- One instruction of a function of `numIn` parameters. -/
theorem beside_perform (hcall : m.CallersBeside d d' most call call')
    (hblind : ∀ body ∈ m.natives.bodies, body.Blind) {p : Pin} {numIn numOut : Nat} {i : Instr}
    (hp : p ∈ pins) (hentered : Beside.Entered ⟨below, d, d', most⟩ p ctx numIn)
    (hi : i.Orderly numIn numOut) (hs : s.Beside ⟨below, d, d', most⟩ pins s') :
    Agree ⟨below, d, d', most⟩ pins (m.perform call ctx i) (m.perform call' ctx i) s s' := by
  cases i with
  | nop | ret _ | retVars => exact .pure hs rfl
  | pushInt k n =>
    cases k with
    | some k => exact .push hs _
    | none => exact .defect hs _
  | pushConst => exact beside_pushConst hs
  | pop n => exact .drop hs n
  | loadVar scope index =>
    exact (Beside.frameOf hs ..).andThen fun _ _ _ hu => (Beside.load hu _).andThen
      fun _ _ _ hu => .push hu _
  | storeVar scope index =>
    exact (Beside.pop hs).andThen fun _ _ _ hu => (Beside.frameOf hu ..).andThen
      fun _ _ _ hu => .store hu ..
  | addrVar scope index =>
    exact (Beside.frameOf hs ..).andThen fun frame _ _ hu => (beside_varType hu ..).andThen
      fun _ _ _ hu => (Beside.newPtr hu ..).andThen fun _ _ _ hu => .push hu _
  | addrOp => exact beside_addrOp hs
  | loadArg below =>
    obtain ⟨hpos, hle⟩ := hi.slot below rfl
    exact .loadArg hs hp hentered hpos hle
  | storeArg below =>
    obtain ⟨hpos, hle⟩ := hi.slot below rfl
    exact .storeArg hs hp hentered hpos hle
  | loadNativeVar => exact beside_loadNativeVar hs
  | builtinOp => exact beside_builtinOp hs
  | convert k =>
    cases k with
    | some k =>
      exact (Beside.pop hs).andThen fun _ _ _ hu => (Beside.convert hu ..).andThen
        fun _ _ _ hu => .push hu _
    | none => exact .defect hs _
  | callFunc index =>
    exact (beside_tableEntry hs ..).andThen fun _ _ _ hu => (Beside.ofChecked hu _).andThen
      fun f _ _ hu => (beside_parentOf hu f).andThen fun _ _ _ hu => hcall.beside _ _ _ _ _ _ hu
  | callFuncv field index =>
    exact (beside_tableEntry hs ..).andThen fun _ _ _ hu => (Beside.readArity hu _).andThen
      fun _ _ _ hu => (Beside.ofChecked hu _).andThen fun f _ _ hu =>
      (beside_packScript hu ..).andThen fun _ _ _ hu => (beside_parentOf hu f).andThen
      fun _ _ _ hu => hcall.beside _ _ _ _ _ _ hu
  | callNative => exact beside_callNative hcall hblind hs
  | callNativev => exact beside_callNativev hcall hblind hs
  | pushNative => exact beside_pushNative hs
  | pushNativev => exact beside_pushNativev hs
  | closure variadic index | hostClosure variadic index =>
    exact (beside_makeClosure hs ..).andThen fun _ _ _ hu => .push hu _
  | callClosure arity =>
    refine (Beside.pop hs).andThen fun v _ _ hu => ?_
    split
    · exact beside_callClosure hcall _ _ hu
    · exact .fail hu _
  | callValue arity =>
    exact (Beside.pop hs).andThen fun v _ _ hu => beside_callValue hcall hblind v _ hu
  | deref =>
    exact (Beside.pop hs).andThen fun v _ _ hu => (Beside.pointee hu v).andThen
      fun _ _ _ hu => (Beside.load hu _).andThen fun _ _ _ hu => .push hu _
  | field => exact beside_field hs

/-- One instruction of a function of `numIn` parameters and `numOut` results. -/
theorem beside_step (hcall : m.CallersBeside d d' most call call')
    (hblind : ∀ body ∈ m.natives.bodies, body.Blind) {p : Pin} {numIn numOut : Nat} {i : Instr}
    (hp : p ∈ pins) (hentered : Beside.Entered ⟨below, d, d', most⟩ p ctx numIn)
    (hi : i.Orderly numIn numOut) (hs : s.Beside ⟨below, d, d', most⟩ pins s') :
    Run.Beside ⟨below, d, d', most⟩ pins (m.step call ctx i) (m.step call' ctx i) s s'
      fun a a' => a' = a ∧ ∀ k, a = .ret (some k) → k = numOut := by
  unfold step
  split
  · exact .pure hs ⟨rfl, fun k hk => by cases hk; exact hi.ret _ rfl⟩
  · exact .pure hs ⟨rfl, fun k hk => nomatch hk⟩
  · exact (beside_perform hcall hblind hp hentered hi hs).andThen fun _ _ _ hu =>
      .pure hu ⟨rfl, fun k hk => nomatch hk⟩

theorem beside_tick {limits limits' : Limits} (hlevel : limits.Level d d' most limits')
    (hs : s.Beside ⟨below, d, d', most⟩ pins s') :
    Agree ⟨below, d, d', most⟩ pins (m.withLimits limits).tick (m.withLimits limits').tick s s' := by
  have hrun {limits : Limits} (hsteps : limits.steps = none) (hsize : limits.stackSize = most)
      (s : Thread) : (m.withLimits limits).tick.exec s =
        (if most < s.stack.size then .error (.error (.of (.stackLimit most))) else .ok (),
          { s with steps := s.steps + 1 }) := by
    unfold tick withLimits
    rw [Task.exec_bind, Task.exec_modify]
    dsimp only
    rw [Task.exec_bind, Task.exec_get]
    dsimp only
    rw [hsteps, hsize]
    dsimp only
    split <;> rfl
  have hnext : Thread.Beside ⟨below, d, d', most⟩ pins { s with steps := s.steps + 1 }
      { s' with steps := s'.steps + 1 } := ⟨hs.world, hs.stack, hs.depth, hs.depth'⟩
  have hsize : s'.stack.size = below.size + s.stack.size := Beside.size_stack hs
  unfold Agree Run.Beside
  rw [hrun hlevel.steps hlevel.stackSize, hrun hlevel.steps' hlevel.stackSize']
  by_cases hmost : most < s.stack.size
  · rw [if_pos hmost, if_pos (by omega)]
    exact .stop (.refl _) hs.world
  · rw [if_neg hmost]
    by_cases hmost' : most < s'.stack.size
    · rw [if_pos hmost']
      refine .crowds ?_ rfl
      rintro rfl
      rw [Array.size_empty] at hsize
      omega
    · rw [if_neg hmost']
      exact .ok hnext rfl

/-- The words of a function of `numIn` parameters and `numOut` results. -/
theorem beside_exec {limits limits' : Limits} (hlevel : limits.Level d d' most limits')
    (hcall : m.CallersBeside d d' most call call') (hblind : ∀ body ∈ m.natives.bodies, body.Blind)
    {p : Pin} {numIn numOut stop offset : Nat} (hp : p ∈ pins)
    (hentered : Beside.Entered ⟨below, d, d', most⟩ p ctx numIn)
    (hcode : ∀ o i, offset ≤ o → o < stop → m.program.instr? o = some i → i.Orderly numIn numOut)
    (hs : s.Beside ⟨below, d, d', most⟩ pins s') :
    Run.Beside ⟨below, d, d', most⟩ pins ((m.withLimits limits).exec call ctx stop offset)
      ((m.withLimits limits').exec call' ctx stop offset) s s'
      fun n n' => n' = n ∧ ∀ k, n = some k → k = numOut := by
  induction hn : stop - offset generalizing offset s s' with
  | zero =>
    rw [exec, if_neg (by omega), exec, if_neg (by omega)]
    exact .pure hs ⟨rfl, fun k hk => absurd hk.symm (Option.some_ne_none k)⟩
  | succ n ih =>
    rw [exec, if_pos (by omega), exec.eq_def (m.withLimits limits'), if_pos (by omega)]
    refine (beside_tick hlevel hs).andThen fun _ s₁ s₁' hs₁ => .expectBind hs₁ fun w hw => ?_
    split
    · exact .defect hs₁ _
    · rename_i i hi
      have horderly : i.Orderly numIn numOut :=
        hcode offset i (Nat.le_refl _) (by omega) (Option.bind_eq_some_iff.2 ⟨w, hw, hi⟩)
      refine (beside_step hcall hblind hp hentered horderly hs₁).bind fun _ a s₂ s₂' hs₂ ha => ?_
      obtain ⟨rfl, hret⟩ := ha
      cases a with
      | next =>
        exact ih (fun o j hle => hcode o j (by omega)) hs₂ (by omega)
      | ret r => exact .pure hs₂ ⟨rfl, fun k hk => hret k (congrArg Next.ret hk)⟩

theorem exec_newFrame {β : Type} (f : Frame) (k : Nat → Run β) (s : Thread) :
    (Run.onWorld (HostTask.allocate (·.newFrame f)) >>= k).exec s =
      (k (s.world.store.newFrame f).1).exec
        { s with world := { s.world with store := (s.world.store.newFrame f).2 } } := rfl

/-- A function that is entered above the same arguments has a frame in either store. -/
theorem beside_openFrame {β : Type} {id parent : Nat} {f : FuncInfo} {k k' : Nat → Run β}
    {R : β → β → Prop} (hs : s.Beside ⟨below, d, d', most⟩ pins s')
    (hk : ∀ frame vars u u', m.frames[id]? = some vars → f.numIn ≤ s.stack.size →
      u.Beside ⟨below, d, d', most⟩ (⟨frame, s.stack.size, s'.stack.size, vars.size⟩ :: pins) u' →
      Run.Beside ⟨below, d, d', most⟩ (⟨frame, s.stack.size, s'.stack.size, vars.size⟩ :: pins)
        (k frame) (k' frame) u u' R) :
    Run.Beside ⟨below, d, d', most⟩ pins (m.openFrame id parent f >>= k)
      (m.openFrame id parent f >>= k') s s' R := by
  have hsize : s'.stack.size = below.size + s.stack.size := Beside.size_stack hs
  have hrun {β : Type} (k : Nat → Run β) (s : Thread) : (m.openFrame id parent f >>= k).exec s =
      (if s.stack.size < f.numIn then Run.fail (.underflow (.call f.name)) else
        Task.expect m.frames[id]? >>= fun vars => Run.onWorld (HostTask.allocate
          (·.newFrame ⟨some id, some parent, s.stack.size, vars⟩)) >>= k : Run β).exec s := by
    unfold openFrame Run.height
    rw [bind_assoc, Task.exec_bind]
    show Task.exec _ s = _
    split
    · rfl
    · simp only [bind_assoc]
  unfold Run.Beside
  rw [hrun, hrun]
  by_cases hin : s.stack.size < f.numIn
  · rw [if_pos hin]
    by_cases hbelow : below = #[]
    · rw [if_pos (by rw [hsize, hbelow, Array.size_empty]; omega)]
      exact .stop (.refl _) hs.world
    · exact .starves hbelow rfl
  · rw [if_neg hin, if_neg (by omega)]
    refine Beside.expectBind hs fun vars hvars =>
      Beside.unpin (p := ⟨s.world.store.frames.size, s.stack.size, s'.stack.size, vars.size⟩) ?_
    obtain ⟨hframe, hnew⟩ := hs.world.store.newFrame (some id) (some parent) vars s.stack.size
      s'.stack.size
    unfold Run.Beside
    rw [exec_newFrame, exec_newFrame, hframe]
    exact hk _ vars _ _ hvars (by omega) ⟨⟨hnew, hs.world.output⟩, hs.stack, hs.depth, hs.depth'⟩

/-- Results that are left in place of the arguments. -/
theorem beside_finish {height height' numOut frame : Nat} {returned : Option Nat}
    (hs : s.Beside ⟨below, d, d', most⟩ pins s') (hheight : height' = below.size + height) :
    Agree ⟨below, d, d', most⟩ pins (finish height numOut frame returned)
      (finish height' numOut frame returned) s s' := by
  have hsize : s'.stack.size = below.size + s.stack.size := Beside.size_stack hs
  cases returned with
  | some n =>
    refine .get ?_
    unfold Stack.keepTop?
    by_cases hn : s.stack.size < n ∨ s.stack.size - n < height
    · rw [if_pos hn]
      by_cases hbelow : below = #[]
      · rw [if_pos (by rw [hheight, hsize, hbelow, Array.size_empty]; omega)]
        exact .failBind hs
      · exact .starves hbelow rfl
    · rw [if_neg hn, if_neg (by omega)]
      refine .setStack hs ?_
      dsimp only
      rw [hsize, Nat.add_sub_assoc (by omega), hs.stack, hheight, cut_above, extract_above,
        Array.append_assoc]
  | none =>
    refine .get (beside_frame hs fun f f' _ hvars => .setStack hs ?_)
    unfold Stack.cut
    dsimp only
    rw [hvars, hs.stack, hheight, cut_above, Array.append_assoc]

theorem beside_enter {limits limits' : Limits} (hlevel : limits.Level d d' most limits')
    (hcall : m.CallersBeside d d' most call call') (hblind : ∀ body ∈ m.natives.bodies, body.Blind)
    (hm : m.program.Orderly) {id parent entry stop : Nat} {f : FuncInfo}
    (hf : m.program.funcs[id]? = some f) (hentry : f.entry = some entry) (hstop : f.stop = some stop)
    (hs : s.Beside ⟨below, d, d', most⟩ pins s') :
    Agree ⟨below, d, d', most⟩ pins ((m.withLimits limits).enter call id parent f entry stop)
      ((m.withLimits limits').enter call' id parent f entry stop) s s' := by
  have hsize : s'.stack.size = below.size + s.stack.size := Beside.size_stack hs
  refine .get (beside_openFrame hs fun frame vars u u' hvars hin hu => ?_)
  have hpin : (⟨frame, s.stack.size, s'.stack.size, vars.size⟩ : Pin) ∈
    ⟨frame, s.stack.size, s'.stack.size, vars.size⟩ :: pins := List.mem_cons_self
  have hbody := beside_exec hlevel hcall hblind hpin ⟨rfl, hsize, hin⟩
    (fun o i hle hlt hi => hm.code id f entry stop o i hf hentry hstop hle hlt hi) hu
  refine (hbody.within f.name).bind fun returned returned' v v' hv hreturned => ?_
  obtain ⟨rfl, -⟩ := hreturned
  exact beside_finish hv (by rw [hsize]; omega)

/-- One more function is active on either thread. -/
theorem beside_descend {limits limits' : Limits} (hlevel : limits.Level d d' most limits')
    {β : Type} {name : String} {k k' : Run β} {R : β → β → Prop}
    (hs : s.Beside ⟨below, d, d', most⟩ pins s')
    (hk : ∀ u u', u.Beside ⟨below, d + 1, d' + 1, most⟩ pins u' →
      Run.Beside ⟨below, d, d', most⟩ pins k k' u u' R) :
    Run.Beside ⟨below, d, d', most⟩ pins ((m.withLimits limits).descend name >>= fun _ => k)
      ((m.withLimits limits').descend name >>= fun _ => k') s s' R := by
  have hnext : Thread.Beside ⟨below, d + 1, d' + 1, most⟩ pins { s with depth := s.depth + 1 }
      { s' with depth := s'.depth + 1 } :=
    ⟨hs.world, hs.stack, congrArg (· + 1) hs.depth, congrArg (· + 1) hs.depth'⟩
  have hdepth := hlevel.depth
  have hd : s.depth = d := hs.depth
  have hd' : s'.depth = d' := hs.depth'
  have hdescend := (m.withLimits limits).exec_descend s name
  have hdescend' := (m.withLimits limits').exec_descend s' name
  have hmax : (m.withLimits limits).limits.callDepth = limits.callDepth := rfl
  have hmax' : (m.withLimits limits').limits.callDepth = limits'.callDepth := rfl
  unfold Run.Beside
  by_cases hroom : limits.callDepth < s.depth + 1
  · rw [if_pos (hmax ▸ hroom)] at hdescend
    rw [if_pos (by omega)] at hdescend'
    rw [Task.exec_bind_error hdescend, Task.exec_bind_error hdescend']
    exact .stop (.error ⟨.depth _ _ _, rfl⟩) hs.world
  · rw [if_neg (hmax ▸ hroom)] at hdescend
    rw [if_neg (by omega)] at hdescend'
    rw [Task.exec_bind_ok hdescend, Task.exec_bind_ok hdescend']
    exact hk _ _ hnext

/-- One function less is active on either thread. -/
theorem beside_ascend {t t' : Run Unit}
    (h : Agree ⟨below, d + 1, d' + 1, most⟩ pins t t' s s') :
    Agree ⟨below, d, d', most⟩ pins (t >>= fun _ => modify fun u => { u with depth := u.depth - 1 })
      (t' >>= fun _ => modify fun u => { u with depth := u.depth - 1 }) s s' := by
  unfold Agree Run.Beside at h ⊢
  rw [Task.exec_bind, Task.exec_bind]
  generalize t.exec s = r, t'.exec s' = r' at h
  cases h with
  | ok hu h =>
    exact .ok ⟨hu.world, hu.stack, congrArg (· - 1) hu.depth, congrArg (· - 1) hu.depth'⟩ rfl
  | stop he hu => exact .stop he hu
  | starves hbelow he => exact .starves hbelow he
  | crowds hbelow he => exact .crowds hbelow he

/-- Calls under limits that leave the same room stay beside each other. -/
theorem callersBeside_call {limits limits' : Limits} (hlevel : limits.Level d d' most limits')
    (hblind : ∀ body ∈ m.natives.bodies, body.Blind) (hm : m.program.Orderly) (room : Nat) :
    m.CallersBeside d d' most ((m.withLimits limits).call room) ((m.withLimits limits').call room) where
  beside below pins id parent s s' hs := by
    induction room generalizing d d' below pins id parent s s' with
    | zero =>
      unfold Machine.call
      refine (Beside.ofChecked hs _).andThen fun f u u' hu => ?_
      split
      · exact beside_descend hlevel hu fun v v' hv => .stop (.refl _) hv.world
      · exact .defect hu _
    | succ room ih =>
      unfold Machine.call
      refine .checkedBind hs fun f hf => ?_
      split
      · rename_i entry stop hentry hstop
        refine beside_descend hlevel hs fun v v' hv => beside_ascend ?_
        exact beside_enter hlevel.succ ⟨fun below pins id parent s s' hs => ih hlevel.succ below pins id
          parent s s' hs, fun c args w => (m.withLimits limits).hostDepth_of_callFresh room c args w,
          fun c args w => (m.withLimits limits').hostDepth_of_callFresh room c args w⟩ hblind hm
          (Program.func_eq_ok.1 hf) hentry hstop hv
      · exact .defect hs _
  keeps c args w := (m.withLimits limits).hostDepth_of_callFresh room c args w
  keeps' c args w := (m.withLimits limits').hostDepth_of_callFresh room c args w

end Machine

end StackScript
