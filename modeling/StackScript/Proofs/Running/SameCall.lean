import StackScript.Proofs.Running.Relocated
import StackScript.Proofs.Running.Variadic

/-!
# Calls from the host and from script

A closure that the host calls runs on a stack of its own; one that script calls runs above what lies
there. Both calls are related by `Machine.callersBeside_call` under limits that leave them the same
room, so they come out the same where no limit is reached (`Machine.sameOutcome_closure`), unless the
call wants for values: above others it goes on with those.
-/

namespace StackScript

theorem Store.Alike.refl {pins : List Pin} (s : Store)
    (h : ∀ p ∈ pins, ∃ f, s.frames[p.frame]? = some f ∧ f.base = p.height ∧ f.base = p.height' ∧
      f.vars.size = p.vars) : s.Alike pins s where
  cells := rfl
  fresh := rfl
  frames := rfl
  pinned p hp := by
    obtain ⟨f, hf, hheight, hheight', hvars⟩ := h p hp
    exact ⟨f, f, hf, hf, hheight, hheight', hvars⟩

/-- A call on a stack of its own, which gives its results, and one above other values come out the
same: the results lie where the arguments lay, or both fail alike, and the worlds are alike. -/
inductive SameOutcome (below : Stack) :
    Except (Stop RuntimeError) (List Value) × World → Except (Stop RuntimeError) Unit × Thread → Prop
  | results {vs : List Value} {w : World} {t : Thread} (hstack : t.stack = below ++ vs.toArray)
    (hworld : w.Alike [] t.world) : SameOutcome below (.ok vs, w) (.ok (), t)
  | stop {e e' : Stop RuntimeError} {w : World} {t : Thread} (he : e.Alike e')
    (hworld : w.Alike [] t.world) : SameOutcome below (.error e, w) (.error e', t)

/-- If one of them fails, the other one fails with an error of the same class. -/
theorem SameOutcome.errorClass {below : Stack} {e : RuntimeError} {w : World}
    {r : Except (Stop RuntimeError) Unit × Thread} (h : SameOutcome below (.error (.error e), w) r) :
    ∃ e' t, r = (.error (.error e'), t) ∧ e'.errorClass = e.errorClass := by
  cases h with
  | stop he hworld =>
    cases he with
    | error he => exact ⟨_, _, rfl, he.errorClass⟩

theorem World.Alike.refl (w : World) : w.Alike [] w := ⟨.refl _ fun _ hp => (nomatch hp), rfl⟩

namespace Machine

variable {m : Machine}

/-- The frames that the machine has for its functions have as many variables as these declare. -/
def Framed (m : Machine) : Prop :=
  ∀ (id : Nat) (vars : Array Value) (f : FuncInfo), m.frames[id]? = some vars → m.program.funcs[id]? = some f →
    vars.size = f.vars.size

/-- The words of a function that is entered return all its results, and leave its frame with its
variables. -/
theorem ensures_exec_returns {limits : Limits} (hsteps : limits.steps = none)
    (hblind : ∀ body ∈ m.natives.bodies, body.Blind) (hm : m.program.Orderly)
    {id entry stop ctx : Nat} (room : Nat) {f : FuncInfo} {fr : Frame} {s : Thread}
    (hf : m.program.funcs[id]? = some f) (hentry : f.entry = some entry) (hstop : f.stop = some stop)
    (hframe : s.world.store.frames[ctx]? = some fr) (hargs : f.numIn ≤ fr.base) :
    ((m.withLimits limits).exec ((m.withLimits limits).call room) ctx stop entry).Ensures s
      (fun n u => (∀ k, n = some k → k = f.numOut) ∧
        ∃ fr', u.world.store.frames[ctx]? = some fr' ∧ fr'.vars.size = fr.vars.size)
      fun _ _ => True := by
  have hlevel : limits.Level s.depth s.depth limits.stackSize limits :=
    ⟨hsteps, hsteps, rfl, rfl, rfl⟩
  have hself : s.Beside ⟨#[], s.depth, s.depth, limits.stackSize⟩
      [⟨ctx, fr.base, fr.base, fr.vars.size⟩] s :=
    ⟨⟨.refl _ fun p hp => by
      cases List.mem_singleton.1 hp
      exact ⟨fr, hframe, rfl, rfl, rfl⟩, rfl⟩, Array.empty_append.symm, rfl, rfl⟩
  have hexec := beside_exec hlevel (callersBeside_call hlevel hblind hm room) hblind
    (List.mem_singleton.2 rfl) ⟨rfl, (Nat.zero_add _).symm, hargs⟩
    (fun o i hle hlt hi => hm.code id f entry stop o i hf hentry hstop hle hlt hi) hself
  refine .of_exec (fun n u hrun => ?_) fun _ _ _ => trivial
  unfold Run.Beside at hexec
  rw [hrun] at hexec
  cases hexec with
  | ok hu h =>
    obtain ⟨fr', -, hfr', -, -, -, hvars⟩ := hu.world.store.pinned _ (List.mem_singleton.2 rfl)
    exact ⟨h.2, fr', hfr', hvars⟩

theorem ensures_openFrame {id parent : Nat} {f : FuncInfo} {s : Thread} :
    (m.openFrame id parent f).Ensures s
      (fun frame u => u.stack = s.stack ∧ ∃ vars, m.frames[id]? = some vars ∧
        u.world.store.frames[frame]? = some ⟨some id, some parent, s.stack.size, vars⟩)
      fun _ _ => True := by
  unfold openFrame
  refine Task.ensures_bind.2 (Task.ensures_bind.2 (Task.ensures_get.2 (Task.ensures_pure.2 ?_)))
  split
  · trivial
  · refine Task.ensures_bind.2 (Task.ensures_expect.2 ⟨fun vars hvars => ?_, fun _ => trivial⟩)
    exact ⟨rfl, vars, hvars, Array.getElem?_push_size⟩

theorem ensures_enter_returns {limits : Limits} (hsteps : limits.steps = none)
    (hblind : ∀ body ∈ m.natives.bodies, body.Blind) (hm : m.program.Orderly) (hframed : m.Framed)
    {id entry stop : Nat} (parent room : Nat) {f : FuncInfo} {s : Thread}
    (hf : m.program.funcs[id]? = some f) (hentry : f.entry = some entry) (hstop : f.stop = some stop)
    (hsize : s.stack.size = f.numIn) :
    ((m.withLimits limits).enter ((m.withLimits limits).call room) id parent f entry stop).Ensures s
      (fun _ u => u.stack.size = f.numOut) fun _ _ => True := by
  unfold enter
  refine Task.ensures_bind.2 (Task.ensures_bind.2 (Task.ensures_get.2 ?_))
  refine ensures_openFrame.bind fun frame s₁ hs₁ => ?_
  obtain ⟨hstack, vars, hvars, hframe⟩ := hs₁
  have hbody := ensures_exec_returns hsteps hblind hm room hf hentry hstop hframe
    (Nat.le_of_eq hsize.symm)
  refine (Task.Ensures.mapError hbody (fun _ _ _ => trivial) fun _ _ _ => trivial).bind
    fun returned s₂ hs₂ => ?_
  obtain ⟨hreturned, fr, hfr, hvarsSize⟩ := hs₂
  have hout : f.numOut ≤ fr.vars.size := by
    rw [hvarsSize, hframed id vars f hvars hf]
    exact hm.results id f hf (by rw [hstop]; rfl)
  rw [hsize, Nat.sub_self]
  cases returned with
  | some n =>
    cases hreturned n rfl
    refine Task.ensures_bind.2 (Task.ensures_get.2 ?_)
    unfold Stack.keepTop?
    split
    · trivial
    · show Array.size _ = _
      rw [Array.size_append, Array.size_extract, Array.size_extract]
      omega
  | none =>
    refine Task.ensures_bind.2 (Task.ensures_get.2 ?_)
    rw [hfr]
    show Array.size _ = _
    unfold Stack.cut
    rw [Array.size_append, Array.size_extract, Array.size_extract]
    omega

/-- A function that is called with its arguments only leaves its results only. -/
theorem ensures_call_returns {limits : Limits} (hsteps : limits.steps = none)
    (hblind : ∀ body ∈ m.natives.bodies, body.Blind) (hm : m.program.Orderly) (hframed : m.Framed)
    {id : Nat} (parent room : Nat) {f : FuncInfo} {s : Thread} (hf : m.program.funcs[id]? = some f)
    (hsize : s.stack.size = f.numIn) :
    ((m.withLimits limits).call room id parent).Ensures s
      (fun _ u => u.stack.size = f.numOut) fun _ _ => True := by
  have hany {α : Type} {t : Run α} {s : Thread} : t.Ensures s (fun _ _ => True) fun _ _ => True :=
    .of_exec (fun _ _ _ => trivial) fun _ _ _ => trivial
  have hfunc : (m.withLimits limits).program.func id = .ok f := Program.func_eq_ok.2 hf
  cases hentry : f.entry with
  | none =>
    unfold Machine.call
    rw [hfunc]
    simp only [Task.ofChecked, pure_bind, hentry]
    trivial
  | some entry =>
  cases hstop : f.stop with
  | none =>
    unfold Machine.call
    rw [hfunc]
    simp only [Task.ofChecked, pure_bind, hentry, hstop]
    trivial
  | some stop =>
  have hdescend : ((m.withLimits limits).descend f.name).Ensures s
      (fun _ u => u.stack = s.stack) fun _ _ => True := by
    unfold Task.Ensures
    rw [exec_descend]
    by_cases hroom : (m.withLimits limits).limits.callDepth < s.depth + 1
    · rw [if_pos hroom]
      trivial
    · rw [if_neg hroom]
  cases room with
  | zero =>
    rw [call_zero hfunc hentry hstop]
    exact hany.bind fun _ _ _ => trivial
  | succ room =>
    rw [call_succ hfunc hentry hstop]
    refine hdescend.bind fun _ s₁ hs₁ => ?_
    have henter := ensures_enter_returns hsteps hblind hm hframed parent room hf hentry
      hstop ((congrArg Array.size hs₁).trans hsize)
    exact henter.bind fun _ _ hu => hu

/-- A function that is called from the host gives as many values as it declares. -/
theorem length_of_callFresh {limits : Limits} (hsteps : limits.steps = none)
    (hblind : ∀ body ∈ m.natives.bodies, body.Blind) (hm : m.program.Orderly) (hframed : m.Framed)
    {c : Closure} {f : FuncInfo} {args vs : List Value} {room : Nat} {w w' : World}
    (hf : m.program.funcs[c.func]? = some f) (hargs : args.length = f.numIn)
    (hrun : ((m.withLimits limits).callFresh ((m.withLimits limits).call room) c args).exec w =
      (.ok vs, w')) : vs.length = f.numOut := by
  have hreturns := ensures_call_returns (s := ⟨w, args.toArray, 0, w.store.hostDepth⟩) hsteps hblind
    hm hframed c.parent room hf hargs
  have hfunc : (m.withLimits limits).program.func c.func = .ok f := Program.func_eq_ok.2 hf
  rw [exec_callFresh _ c args w hfunc hargs] at hrun
  unfold Task.Ensures at hreturns
  generalize Task.exec _ (Thread.mk w _ _ _) = r at hreturns hrun
  obtain ⟨e | a, u⟩ := r
  · cases hrun
  · cases hrun
    exact hreturns

/-! ## From the host and from script -/

/-- Of two bounds on the height of a stack one is not in an error. -/
theorem exists_uncrowded {α : Type} (least : Nat) (r : Except (Stop RuntimeError) α) :
    ∃ most, least ≤ most ∧ ∀ e, r = .error e → ¬e.IsCrowded most := by
  by_cases h : ∃ e, r = .error e ∧ e.IsCrowded least
  · obtain ⟨e, rfl, he⟩ := h
    refine ⟨least + 1, Nat.le_succ _, fun e' he' hcrowded => ?_⟩
    cases he'
    cases e with
    | error e =>
      have hcauses := Cause.stackLimit.inj ((show e.cause = _ from he).symm.trans hcrowded)
      omega
    | fault f => exact he
  · exact ⟨least, Nat.le_refl _, fun e he hcrowded => h ⟨e, he, hcrowded⟩⟩

/-- A call on a stack of its own comes out like one on another stack, above `below`, or the first
one lacks values. -/
theorem sameOutcome_call (hblind : ∀ body ∈ m.natives.bodies, body.Blind) (hm : m.program.Orderly)
    {c : Closure} {g : FuncInfo} {args : List Value} {w : World} {u : Thread} {below : Stack}
    (hg : m.program.func c.func = .ok g) (hargs : args.length = g.numIn)
    (hstack : u.stack = below ++ args.toArray) (hworld : w.Alike [] u.world)
    (hhost : m.ReachesNoLimit (fun m => m.callFresh (m.callAt w.store.hostDepth) c args) w)
    (hscript : m.ReachesNoLimit (fun m => m.callAt u.depth c.func c.parent) u)
    (henough : ∀ e, ((m.callFresh (m.callAt w.store.hostDepth) c args).exec w).1 = .error e →
      ¬e.IsUnderflow) :
    SameOutcome below ((m.callFresh (m.callAt w.store.hostDepth) c args).exec w)
      ((m.callAt u.depth c.func c.parent).exec u) := by
  obtain ⟨most, hmost, hcrowded⟩ : ∃ most, m.limits.stackSize ≤ most ∧
      ∀ e, ((m.callAt u.depth c.func c.parent).exec u).1 = .error e → ¬e.IsCrowded most :=
    exists_uncrowded _ _
  -- Limits without a count of steps, and with the same room for either call.
  have hle (depth : Nat) : m.limits.Le ⟨m.limits.callDepth + depth, none, most, true⟩ :=
    ⟨Nat.le_add_right .., fun _ h => (nomatch h), hmost⟩
  have hlevel : Limits.Level w.store.hostDepth u.depth most
      ⟨m.limits.callDepth + w.store.hostDepth, none, most, true⟩
      ⟨m.limits.callDepth + u.depth, none, most, true⟩ :=
    ⟨rfl, rfl, rfl, rfl, Nat.add_right_comm ..⟩
  have hroom (depth : Nat) :
      (m.withLimits ⟨m.limits.callDepth + depth, none, most, true⟩).callAt depth =
        (m.withLimits ⟨m.limits.callDepth + depth, none, most, true⟩).call m.limits.callDepth :=
    congrArg (Machine.call _) (Nat.add_sub_cancel ..)
  have hends := (callersBeside_call hlevel hblind hm m.limits.callDepth).beside below [] c.func
    c.parent ⟨w, args.toArray, 0, w.store.hostDepth⟩ u ⟨hworld, hstack, rfl, rfl⟩
  rw [← hroom, ← hroom] at hends
  unfold Run.Agree Run.Beside at hends
  rw [hscript _ (hle _)] at hends
  have hfresh := exec_callFresh ((m.withLimits ⟨m.limits.callDepth + w.store.hostDepth, none, most,
    true⟩).callAt w.store.hostDepth) c args w hg hargs
  have hhost := (hhost _ (hle w.store.hostDepth)).symm.trans hfresh
  rw [hhost] at henough ⊢
  generalize Task.exec _ (Thread.mk w _ _ _) = r, (m.callAt u.depth c.func c.parent).exec u = r'
    at hends hcrowded henough ⊢
  cases hends with
  | ok hu h => exact .results hu.stack hu.world
  | stop he hu => exact .stop he hu
  | starves hbelow he => exact absurd he (henough _ rfl)
  | crowds hbelow he' => exact absurd he' (hcrowded _ rfl)

/-! ### Arguments -/

end Machine

/-- A function takes the arguments that are given: a variadic one takes a slice of all that are given
behind its first parameters. The second thread is the one behind that. -/
inductive FuncInfo.Passes (g : FuncInfo) (t : Thread) :
    Arity → List Value → List Value → Thread → Prop
  | fixed {args : List Value} (h : g.isVariadic = false) (hlength : args.length = g.numIn) :
    Passes g t (.count args.length) args args t
  | rest {fixed : List Ty} {last elem : Ty} {given : List Value} (h : g.isVariadic = true)
    (hparams : g.params = fixed ++ [last]) (helem : last.elem? = some elem)
    (hlength : fixed.length ≤ given.length)
    (hfit : ∀ v ∈ given.drop fixed.length, v.fits elem = true) :
    Passes g t (.count given.length) given
      (given.take fixed.length ++ [.slice t.world.store.fresh elem (given.drop fixed.length)])
      t.numbered
  | slice {fixed : List Ty} {last ty : Ty} {first items : List Value} {id : Nat}
    (h : g.isVariadic = true) (hparams : g.params = fixed ++ [last]) :
    Passes g t .spread (first ++ [.slice id ty items]) (first ++ [.slice id ty items]) t
  | nil {fixed : List Ty} {last elem : Ty} {first : List Value} (h : g.isVariadic = true)
    (hparams : g.params = fixed ++ [last]) (helem : last.elem? = some elem) :
    Passes g t .spread (first ++ [.nil]) (first ++ [.slice t.world.store.fresh elem []]) t.numbered

/-- An instruction that calls the closure on top of the stack, as it is or as a function value. -/
inductive Closure.CalledBy (c : Closure) (arity : Arity) : Instr → Value → Prop
  | closure : CalledBy c arity (.callClosure arity) (.closure c)
  | value : CalledBy c arity (.callValue arity) (.closure c)
  | func {sig : Signature} : CalledBy c arity (.callValue arity) (.func ⟨sig, .script c⟩)

section

variable {g : FuncInfo} {t u : Thread} {arity : Arity} {given args : List Value}

theorem FuncInfo.Passes.stack (h : g.Passes t arity given args u) : u.stack = t.stack := by
  cases h <;> rfl

theorem FuncInfo.Passes.depth (h : g.Passes t arity given args u) : u.depth = t.depth := by
  cases h <;> rfl

namespace Machine

variable {m : Machine}

/-- The function starts on the arguments that it takes. -/
theorem exec_callClosure {call : Caller} {c : Closure} (hg : m.program.func c.func = .ok g)
    (h : g.Passes t arity given args u) :
    (m.callClosure call c arity).exec (t.above given) =
      (call c.func c.parent).exec (u.above args) := by
  unfold callClosure
  rw [hg]
  simp only [Task.ofChecked, pure_bind]
  cases h with
  | fixed hfixed hlength =>
    rw [if_neg (by rw [hfixed]; exact Bool.false_ne_true), Run.checkCount]
    simp only [hlength, if_true, pure_bind]
  | rest hvariadic hparams helem hlength hfit =>
    rw [if_pos hvariadic, packScript_eq hparams,
      Task.exec_bind_ok (Run.exec_pack_count (Ty.getD_elem? helem) hlength hfit)]
  | slice hvariadic hparams =>
    rw [if_pos hvariadic, packScript_eq hparams, Task.exec_bind_ok Run.exec_pack_slice]
  | nil hvariadic hparams helem =>
    rw [if_pos hvariadic, packScript_eq hparams, Task.exec_bind_ok (Run.exec_pack_nil (Ty.getD_elem? helem))]

theorem exec_calledBy {call : Caller} {ctx : Nat} {c : Closure} {i : Instr} {v : Value}
    (hg : m.program.func c.func = .ok g) (hi : c.CalledBy arity i v)
    (h : g.Passes t arity given args u) :
    (m.perform call ctx i).exec ((t.above given).above [v]) =
      (call c.func c.parent).exec (u.above args) := by
  rw [← exec_callClosure hg h]
  have hpop {α : Type} {v : Value} {k : Value → Run α} :
      (Run.pop >>= k).exec ((t.above given).above [v]) = (k v).exec (t.above given) :=
    Task.exec_bind_ok Run.exec_pop
  cases hi <;> exact hpop

/-- A function value that is called from the host checks arguments and results, and else is called
as its closure is. -/
theorem exec_invoke_script {call : Caller} {sig : Signature} {c : Closure} {w : World}
    (hargs : Natives.checkArgs sig args = .ok ())
    (hresults : ∀ vs w', (m.callFresh call c args).exec w = (.ok vs, w') →
      vs.length = sig.results.length) :
    (m.invoke call ⟨sig, .script c⟩ args).exec w = (m.callFresh call c args).exec w := by
  unfold invoke
  rw [show Natives.hostNesting = 9999 + 1 from rfl, Natives.invoke, hargs]
  show ((m.callFresh call c args >>= fun results => _).exec w) = _
  rw [Task.exec_bind]
  generalize (m.callFresh call c args).exec w = r at hresults ⊢
  obtain ⟨e | vs, w'⟩ := r
  · rfl
  · dsimp only
    rw [if_neg (by simpa using hresults vs w' rfl)]
    rfl

/-- A call of a closure that reaches no limit and has enough values on a stack of its own comes out
the same from the host and from script. -/
theorem sameOutcome_closure (hblind : ∀ body ∈ m.natives.bodies, body.Blind)
    (hm : m.program.Orderly) (hframed : m.Framed) {c : Closure} {sig : Signature} {w : World}
    (hg : m.program.funcs[c.func]? = some g) (hin : args.length = g.numIn)
    (hout : g.numOut = sig.results.length) (hargs : Natives.checkArgs sig args = .ok ())
    (hhost : m.ReachesNoLimit (fun m => m.callFresh (m.callAt w.store.hostDepth) c args) w)
    (henough : ∀ e, ((m.callFresh (m.callAt w.store.hostDepth) c args).exec w).1 = .error e →
      ¬e.IsUnderflow) :
    (m.invoke (m.callAt w.store.hostDepth) ⟨sig, .script c⟩ args).exec w =
        (m.callFresh (m.callAt w.store.hostDepth) c args).exec w ∧
      ∀ (t u : Thread) (arity : Arity) (given : List Value) (ctx : Nat) (i : Instr) (v : Value),
        g.Passes t arity given args u → c.CalledBy arity i v → w.Alike [] u.world →
        m.ReachesNoLimit (fun m => m.perform (m.callAt t.depth) ctx i) ((t.above given).above [v]) →
        SameOutcome t.stack ((m.callFresh (m.callAt w.store.hostDepth) c args).exec w)
          ((m.perform (m.callAt t.depth) ctx i).exec ((t.above given).above [v])) := by
  have hfunc : m.program.func c.func = .ok g := Program.func_eq_ok.2 hg
  refine ⟨exec_invoke_script hargs fun vs w' hrun => ?_, fun t u arity given ctx i v hpasses hi
    hworld hscript => ?_⟩
  · rw [← hhost ⟨m.limits.callDepth, none, m.limits.stackSize, true⟩
      ⟨Nat.le_refl _, fun _ h => (nomatch h), Nat.le_refl _⟩] at hrun
    exact (length_of_callFresh rfl hblind hm hframed hg hin hrun).trans hout
  · have hcalls (m' : Machine) (hm' : m'.program = m.program) :
        (m'.perform (m'.callAt t.depth) ctx i).exec ((t.above given).above [v]) =
          (m'.callAt (u.above args).depth c.func c.parent).exec (u.above args) := by
      rw [exec_calledBy (hm' ▸ hfunc) hi hpasses, ← hpasses.depth]
      rfl
    rw [hcalls m rfl, ← hpasses.stack]
    refine sameOutcome_call hblind hm hfunc hin rfl hworld hhost (fun limits hle => ?_) henough
    exact (hcalls (m.withLimits limits) rfl).symm.trans ((hscript limits hle).trans (hcalls m rfl))

end Machine

end

/-! ## Compiled programs -/

/-- A closure of a function of one of the tables, with its signature, as instructions make it. -/
structure Program.Makes (p : Program) (c : Closure) : Prop where
  func : ∃ (variadic : Bool) (place : Nat), (p.table variadic)[place]? = some c.func
  sig : p.signature c.func = .ok c.sig

theorem Machine.Builds.framed {p : Program} {limits : Limits} {natives : Natives} {m : Machine}
    (h : Machine.Builds p limits natives m) : m.Framed := by
  intro id vars f hvars hf
  rw [h.program] at hf
  obtain ⟨hid, rfl⟩ := Array.getElem?_eq_some_iff.1 hvars
  obtain ⟨hid', rfl⟩ := Array.getElem?_eq_some_iff.1 hf
  have hzeros : Machine.Zeros p p.funcs[id].vars m.frames[id] := h.frames.get hid' hid
  exact (List.Forall₂.length_eq hzeros).symm

/-- A closure that instructions make is one of a function that is defined, with as many parameters
and results as its signature. -/
theorem FileCode.signed_of_makes {o : Output} {f : File} (h : FileCode o f) {c : Closure}
    (hc : o.program.Makes c) : ∃ g, o.program.funcs[c.func]? = some g ∧
      g.numIn = c.sig.params.length ∧ g.numOut = c.sig.results.length := by
  obtain ⟨⟨variadic, place, hentry⟩, hsig⟩ := hc
  obtain ⟨g, hg, -, hstop⟩ := h.tables variadic place c.func hentry
  obtain ⟨hparams, hsigned, hout, -⟩ := h.funcs c.func g hg hstop
  unfold Program.signature at hsig
  rw [Program.func_eq_ok.2 hg] at hsig
  simp only [bind, Except.bind, hsigned.declares] at hsig
  cases hsig
  exact ⟨g, hg, congrArg List.length hparams, hout⟩

/-- Arguments that fit are as many as there are parameters. -/
theorem length_of_checkArgs {sig : Signature} {args : List Value}
    (h : Natives.checkArgs sig args = .ok ()) : args.length = sig.params.length := by
  by_contra hne
  unfold Natives.checkArgs at h
  rw [if_pos hne] at h
  cases h

/-- Calling a closure from the host and from script is the same call. On arguments that fit, the
function value and the closure itself give the host the same. And an instruction that calls the
closure comes out as that, above whatever values, if the worlds are alike but for the heights at which
functions were entered: it leaves the same results above those values, or an error of the same
class, and a world that is alike. This takes it that no limit is reached, that host functions do not
see heights and depths, and that the call from the host does not want for values. -/
theorem File.closure_calls_alike {r : Registry} {folds : Bool} {f : File} {p : Program}
    {limits : Limits} {m : Machine} (h : f.compile r folds = .ok p) (hsmall : p.Small)
    (hshort : ∀ (id : Nat) (sig : Signature), p.sig? id = some sig → sig.Short)
    (hlink : Machine.link p limits r.natives = .ok m)
    (hblind : ∀ body ∈ r.natives.bodies, body.Blind) {c : Closure} (hc : p.Makes c)
    {args : List Value} (hargs : Natives.checkArgs c.sig args = .ok ()) {w : World}
    (hhost : m.ReachesNoLimit (fun m => m.callFresh (m.callAt w.store.hostDepth) c args) w)
    (henough : ∀ e, ((m.callFresh (m.callAt w.store.hostDepth) c args).exec w).1 = .error e →
      ¬e.IsUnderflow) :
    (m.invoke (m.callAt w.store.hostDepth) (.ofClosure c) args).exec w =
        (m.callFresh (m.callAt w.store.hostDepth) c args).exec w ∧
      ∀ (g : FuncInfo) (t u : Thread) (arity : Arity) (given : List Value) (ctx : Nat) (i : Instr)
        (v : Value), p.funcs[c.func]? = some g → g.Passes t arity given args u →
        c.CalledBy arity i v → w.Alike [] u.world →
        m.ReachesNoLimit (fun m => m.perform (m.callAt t.depth) ctx i) ((t.above given).above [v]) →
        SameOutcome t.stack ((m.callFresh (m.callAt w.store.hostDepth) c args).exec w)
          ((m.perform (m.callAt t.depth) ctx i).exec ((t.above given).above [v])) := by
  obtain ⟨hbuilds, -⟩ := Machine.link_eq_ok.1 hlink
  have horderly := File.orderly_of_compile h hsmall hshort
  obtain ⟨o, -, -, rfl, hcode⟩ := File.code_of_compile h hsmall
  obtain ⟨g, hg, hin, hout⟩ := hcode.signed_of_makes hc
  rw [← hbuilds.program] at hg horderly
  rw [← hbuilds.natives] at hblind
  have hlength : args.length = g.numIn := (length_of_checkArgs hargs).trans hin.symm
  obtain ⟨hinvoke, hscript⟩ := Machine.sameOutcome_closure hblind horderly hbuilds.framed hg hlength
    hout hargs hhost henough
  refine ⟨hinvoke, fun g' t u arity given ctx i v hg' => ?_⟩
  rw [← hbuilds.program] at hg'
  cases hg.symm.trans hg'
  exact hscript t u arity given ctx i v

/-! ### A function that adds its argument to itself -/

/-- `f := func(n int) int { return n + n }`. -/
def File.doubling : File := ⟨[], [], [.assign .define [.ident "f"]
  [.funcLit 0 ⟨[⟨some "n", .name "int"⟩], false, [⟨none, .name "int"⟩]⟩
    [.ret [.binary .add (.ident "n") (.ident "n")]]]]⟩

namespace Doubling

@[irreducible]
def program : Program := (File.doubling.compile .empty true).toOption.get (by decide +kernel)

@[irreducible]
def machine : Machine := (Machine.link program {} .empty).toOption.get (by decide +kernel)

@[irreducible]
def sig : Signature := (program.signature 0).toOption.get (by decide +kernel)

/-- The world behind a run of the main body. -/
@[irreducible]
def world : World := (machine.run.exec default).2

def closure : Closure := ⟨0, 0, 0, sig⟩

theorem compiles : File.doubling.compile .empty true = .ok program := by
  unfold program
  exact eq_ok_get _

theorem links : Machine.link program {} .empty = .ok machine := by
  unfold machine
  exact eq_ok_get _

theorem makes : program.Makes closure := by
  refine ⟨⟨false, 0, by decide +kernel⟩, ?_⟩
  show program.signature 0 = .ok sig
  unfold sig
  exact eq_ok_get _

theorem small : program.Small := by
  have hvars : ∀ f ∈ program.funcs, f.vars.size ≤ 1 <<< 32 := by decide +kernel
  exact ⟨by decide +kernel, by decide +kernel, fun id f hf => hvars f (Array.mem_of_getElem? hf)⟩

theorem short (id : Nat) (sig : Signature) (h : program.sig? id = some sig) : sig.Short := by
  have hsigs : ∀ f ∈ program.funcs, ∀ sig ∈ f.sig, sig.params.length < Balance.mostPushed ∧
      sig.results.length < Balance.mostPushed := by decide +kernel
  obtain ⟨f, hf, hsig⟩ := Option.bind_eq_some_iff.1 h
  exact hsigs f (Array.mem_of_getElem? hf) sig hsig

theorem checked : Natives.checkArgs sig [.int 21] = .ok () := by
  have hok : (Natives.checkArgs sig [.int 21]).toOption.isSome := by decide +kernel
  exact eq_ok_get hok

/-- The call of the closure with the argument 21, above the value nil. -/
theorem calls_alike : File.doubling.compile .empty true = .ok program ∧
    Machine.link program {} .empty = .ok machine ∧ program.Makes closure ∧
    Natives.checkArgs closure.sig [.int 21] = .ok () ∧
    SameOutcome #[.nil] ((machine.callFresh (machine.callAt 0) closure [.int 21]).exec world)
      ((machine.perform (machine.callAt 0) 0 (.callClosure (.count 1))).exec
        ⟨world, #[.nil, .int 21, .closure closure], 0, 0⟩) := by
  have hbodies {P : HostBody → Prop} : ∀ body ∈ machine.natives.bodies, P body := by
    rw [(Machine.link_eq_ok.1 links).1.natives]
    exact fun body hbody => absurd hbody (Array.not_mem_empty body)
  have hdepth : world.store.hostDepth = 0 := by decide +kernel
  have hhost : ((machine.callFresh (machine.callAt world.store.hostDepth) closure [.int 21]).exec
      world).1.toOption.isSome := by decide +kernel
  have hscript : ((machine.perform (machine.callAt 0) 0 (.callClosure (.count 1))).exec
      ⟨world, #[.nil, .int 21, .closure closure], 0, 0⟩).1.toOption.isSome := by decide +kernel
  have hfunc : program.funcs[0]?.any fun g => g.isVariadic = false ∧ g.numIn = 1 := by
    decide +kernel
  obtain ⟨g, hg, hpasses⟩ := (Option.any_eq_true _ _).1 hfunc
  obtain ⟨hfixed, hin⟩ := of_decide_eq_true hpasses
  have hno {α : Type} {r : Except (Stop RuntimeError) α} (hr : r.toOption.isSome)
      {P : Stop RuntimeError → Prop} : ∀ e, r = .error e → P e := by
    rintro e rfl
    cases hr
  obtain ⟨-, halike⟩ := File.closure_calls_alike compiles small short links
    (fun body hbody => absurd hbody (Array.not_mem_empty body)) makes checked
    (Machine.reachesNoLimit_callFresh hbodies (hno hhost)) (hno hhost)
  rw [hdepth] at halike
  have hgiven : g.Passes ⟨world, #[.nil], 0, 0⟩ (.count 1) [.int 21] [.int 21]
      ⟨world, #[.nil], 0, 0⟩ := @FuncInfo.Passes.fixed g _ [.int 21] hfixed hin.symm
  exact ⟨compiles, links, makes, checked, halike g _ _ _ _ 0 (.callClosure (.count 1)) _ hg hgiven
    .closure (.refl world) (Machine.reachesNoLimit_perform hbodies (hno hscript))⟩

end Doubling

/-! ### A function that wants for values -/

/-- `h := func() {}; g := func(q func() int) { k := q; x := k(); y := k() }`, where `g` finds nothing
to store in `y` if it is given `h`. -/
def File.starving : File :=
  let gives : TypeExpr := .func ⟨[], false, [⟨none, .name "int"⟩]⟩
  let call : Expr := .call (.ident "k") [] false
  ⟨[], [], [.assign .define [.ident "h"] [.funcLit 0 ⟨[], false, []⟩ []],
    .assign .define [.ident "g"] [.funcLit 0 ⟨[⟨some "q", gives⟩], false, []⟩
      [.assign .define [.ident "k"] [.ident "q"], .assign .define [.ident "x"] [call],
        .assign .define [.ident "y"] [call]]]]⟩

namespace Starving

@[irreducible]
def program : Program := (File.starving.compile .empty true).toOption.get (by decide +kernel)

@[irreducible]
def machine : Machine := (Machine.link program {} .empty).toOption.get (by decide +kernel)

/-- The world behind a run of the main body. -/
@[irreducible]
def world : World := (machine.run.exec default).2

/-- The call of a closure with an argument it takes ends in a stack underflow from the host, and
comes back from script, where it takes the value that lies below its argument. -/
def differs (h : Value) (sig : Signature) (c : Closure) : Bool :=
  (Natives.checkArgs sig [h]).toOption.isSome &&
    (match (machine.callFresh (machine.callAt 0) c [h]).exec world with
      | (.error (.error e), _) => decide (e.errorClass = .stackUnderflow)
      | _ => false) &&
    match (machine.perform (machine.callAt 0) 0 (.callClosure (.count 1))).exec
        ⟨world, #[.nil, h, .closure c], 0, 0⟩ with
    | (.ok _, t) => t.stack.isEmpty
    | _ => false

/-- So it is for the values that a run leaves in the two variables. -/
def differsBehindRun : Bool :=
  match world.store.frames[0]?.map (·.vars.toList) with
  | some [h, Value.func ⟨sig, .script c⟩] => differs h sig c
  | _ => false

/-- The variables `h` and `g` hold function values such that `h` is an argument for `g`. Called with
it from the host, `g` ends in a stack underflow; called with it from script, above another value, `g`
comes back and that value is gone. -/
theorem calls_differ : File.starving.compile .empty true = .ok program ∧
    Machine.link program {} .empty = .ok machine ∧ ∃ h sig c,
      world.store.frames[0]?.map (·.vars.toList) = some [h, .func ⟨sig, .script c⟩] ∧
      Natives.checkArgs sig [h] = .ok () ∧
      (machine.callFresh (machine.callAt 0) c [h]).Ensures world (fun _ _ => False)
        (fun e _ => e.IsUnderflow) ∧
      (machine.perform (machine.callAt 0) 0 (.callClosure (.count 1))).Ensures
        ⟨world, #[.nil, h, .closure c], 0, 0⟩ (fun _ t => t.stack = #[]) fun _ _ => False := by
  have hdiffers : differsBehindRun = true := by decide +kernel
  refine ⟨by unfold program; exact eq_ok_get _, by unfold machine; exact eq_ok_get _, ?_⟩
  unfold differsBehindRun at hdiffers
  split at hdiffers
  · rename_i h sig c hvars
    simp only [differs, Bool.and_eq_true] at hdiffers
    obtain ⟨⟨hargs, hhost⟩, hscript⟩ := hdiffers
    refine ⟨h, sig, c, hvars, eq_ok_get hargs, ?_, ?_⟩
    · unfold Task.Ensures
      split at hhost
      · rename_i e w hrun
        rw [hrun]
        show e.errorClass = .stackUnderflow
        exact of_decide_eq_true hhost
      · cases hhost
    · unfold Task.Ensures
      split at hscript
      · rename_i t hrun
        rw [hrun]
        exact Array.isEmpty_iff.1 hscript
      · cases hscript
  · cases hdiffers

end Starving

end StackScript
