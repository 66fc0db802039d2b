import StackScript.Proofs.Running.Visiting
import StackScript.Proofs.Typing.Runs

/-!
# Typed moments

All that a run of a typed program visits is typed (`Machine.typed_of_meets`): the store, the stack of
the thread, and on it the arguments of every function that is active there (`Store.Beneath`). So each
variable and each parameter fits its type at every moment (`Machine.TypeSafe`).
-/

namespace StackScript

/-! ## Moments by thread -/

/-- The moments that a run visits, each with the frames of the functions that are active on its
thread, the innermost first. -/
inductive Machine.Meets (m : Machine) (may : HostRely) (w : World) : List Nat → Moment → Prop
  | start : Meets m may w []
    (.code m.limits.callDepth w.store.frames.size m.program.mainEnd 0 ⟨m.entered w, #[], 0, 0⟩)
  | next {own : List Nat} {room ctx stop offset : Nat} {i : Instr} {t t₁ t₂ : Thread}
    (h : Meets m may w own (.code room ctx stop offset t)) (hi : m.Fetches stop offset t i t₁)
    (hreturn : Balance.isReturn i = false)
    (hstep : (m.perform (m.call room) ctx i).exec t₁ = (.ok (), t₂)) :
    Meets m may w own (.code room ctx stop (offset + 1) t₂)
  | script {own : List Nat} {room ctx stop offset id parent : Nat} {i : Instr} {t t₁ t₂ : Thread}
    (h : Meets m may w own (.code room ctx stop offset t)) (hi : m.Fetches stop offset t i t₁)
    (hcalls : m.CallsScript ctx i t₁ id parent t₂) : Meets m may w own (.call room id parent t₂)
  | enter {own : List Nat} {room id parent entry stop frame : Nat} {f : FuncInfo}
    {t t₁ t₂ : Thread} (h : Meets m may w own (.call (room + 1) id parent t))
    (hf : m.program.func id = .ok f) (hentry : f.entry = some entry) (hstop : f.stop = some stop)
    (hdescend : (m.descend f.name).exec t = (.ok (), t₁))
    (hframe : (m.openFrame id parent f).exec t₁ = (.ok frame, t₂)) :
    Meets m may w (frame :: own) (.code room frame stop entry t₂)
  | host {own : List Nat} {room ctx stop offset : Nat} {i : Instr} {f : FuncValue}
    {name : String} {args : List Value} {t t₁ t₂ : Thread}
    (h : Meets m may w own (.code room ctx stop offset t)) (hi : m.Fetches stop offset t i t₁)
    (henters : m.EntersHost ctx i t₁ f name args t₂) (htakes : m.TakesUp f args) :
    Meets m may w own (.host room (t₂.world.publishing t₂.depth))
  /-- Code that the host calls back runs on a thread of its own. -/
  | callback {own : List Nat} {room : Nat} {f : FuncInfo} {w₁ w₂ : World} {c : Closure}
    {args : List Value} (h : Meets m may w own (.host room w₁)) (hmay : may w₁ w₂ c args)
    (hf : m.program.func c.func = .ok f) (hargs : args.length = f.numIn) :
    Meets m may w [] (.call room c.func c.parent ⟨w₂, args.toArray, 0, w₂.store.hostDepth⟩)

/-- Every moment that a run visits is one of these, with the innermost of the active functions. -/
theorem Machine.Visits.meets {m : Machine} {may : HostRely} {w : World} {active : List Nat} {x : Moment}
    (h : m.Visits may w active x) : ∃ own, m.Meets may w own x ∧ own <+: active := by
  induction h with
  | start => exact ⟨[], .start, List.prefix_rfl⟩
  | next _ hi hreturn hstep ih =>
    obtain ⟨own, hmeets, hown⟩ := ih
    exact ⟨own, hmeets.next hi hreturn hstep, hown⟩
  | script _ hi hcalls ih =>
    obtain ⟨own, hmeets, hown⟩ := ih
    exact ⟨own, hmeets.script hi hcalls, hown⟩
  | enter _ hf hentry hstop hdescend hframe ih =>
    obtain ⟨own, hmeets, hown⟩ := ih
    exact ⟨_ :: own, hmeets.enter hf hentry hstop hdescend hframe, (List.prefix_cons_inj _).2 hown⟩
  | host _ hi henters htakes ih =>
    obtain ⟨own, hmeets, hown⟩ := ih
    exact ⟨own, hmeets.host hi henters htakes, hown⟩
  | callback _ hmay hf hargs ih =>
    obtain ⟨own, hmeets, -⟩ := ih
    exact ⟨[], hmeets.callback hmay hf hargs, List.nil_prefix⟩

/-- A run that goes through instructions comes behind them. -/
theorem Machine.Meets.follow {m : Machine} {may : HostRely} {w : World} {own : List Nat}
    {room ctx stop offset : Nat} {is : List Instr} {t t' : Thread}
    (h : m.Meets may w own (.code room ctx stop offset t)) (hreads : m.program.Reads offset is)
    (hreturn : ∀ i ∈ is, Balance.isReturn i = false) (hstop : offset + is.length ≤ stop)
    (hrun : (m.follow (m.call room) ctx is).exec t = (.ok (), t')) :
    m.Meets may w own (.code room ctx stop (offset + is.length) t') := by
  induction is generalizing offset t with
  | nil =>
    cases hrun
    exact h
  | cons i is ih =>
    rw [List.length_cons] at hstop ⊢
    obtain ⟨_, t₁, htick, hrun⟩ := Task.exec_bind_eq_ok.1 hrun
    obtain ⟨_, t₂, hstep, hrun⟩ := Task.exec_bind_eq_ok.1 hrun
    have hnext := h.next ⟨by omega, hreads.1, htick⟩ (hreturn i List.mem_cons_self) hstep
    have hrest := ih hnext hreads.2 (fun j hj => hreturn j (List.mem_cons_of_mem i hj)) (by omega) hrun
    rwa [Nat.add_assoc, Nat.add_comm 1] at hrest

/-! ## Active functions -/

section

variable {g : Setting} {D : TypeNames} {file : File} {labels : Nat} {cells cells' : Array Ty}
  {s s' : Store} {own : List Nat} {below : List Value}

/-- Among the values are the arguments of the functions that run in the frames, the innermost first,
each below the base of its frame. Operands of the innermost one may lie above them. -/
inductive Store.Beneath (g : Setting) (cells : Array Ty) (s : Store) : List Nat → List Value → Prop
  | nil {ops : List Value} : Beneath g cells s [] ops
  | cons {own : List Nat} {f id : Nat} {frame : Frame} {info : FuncInfo} {sig : Signature}
    {below args ops : List Value} (h : Beneath g cells s own below) (hframe : s.frames[f]? = some frame)
    (hfunc : frame.func = some id) (henters : g.Enters id info sig)
    (hbase : frame.base = below.length + args.length) (hargs : AreOf g cells s args sig.params) :
    Beneath g cells s (f :: own) (below ++ args ++ ops)

theorem Store.Beneath.mono (h : s.Beneath g cells own below) (hcells : Extends cells cells')
    (hs : s.Grows s') : s'.Beneath g cells' own below := by
  induction h with
  | nil => exact .nil
  | cons _ hframe hfunc henters hbase hargs ih =>
    obtain ⟨frame', hframe', hfunc', -, hbase', -⟩ := hs.frames _ _ hframe
    exact .cons ih hframe' (hfunc'.trans hfunc) henters (hbase'.trans hbase) (hargs.mono hcells hs)

/-- The frames of the functions that are active on a thread which runs code of the body `b` in the
frame `ctx`: none for the main body. -/
inductive Body.Owns (b : Body) (g : Setting) (cells : Array Ty) (s : Store) (ctx : Nat)
    (below : List Value) : List Nat → Prop
  | main (hfunc : b.func = none) : Owns b g cells s ctx below []
  | func {own : List Nat} {id : Nat} {info : FuncInfo} {sig : Signature} (hfunc : b.func = some id)
    (henters : g.Enters id info sig) (h : s.Beneath g cells own below) :
    Owns b g cells s ctx below (ctx :: own)

theorem Body.Owns.mono {b : Body} {ctx : Nat} (h : b.Owns g cells s ctx below own)
    (hcells : Extends cells cells') (hs : s.Grows s') : b.Owns g cells' s' ctx below own := by
  cases h with
  | main hfunc => exact .main hfunc
  | func hfunc henters h => exact .func hfunc henters (h.mono hcells hs)

/-- The arguments of the running function are among the values on the stack. -/
theorem Standing.beneath {b : Body} {ctx : Nat} {args : List Value} {τ : List Slot} {t : Thread}
    {ops : List Value} (hcode : FileCode g.out file) (hs : Standing g cells b ctx below args τ t ops)
    (h : b.Owns g cells t.world.store ctx below own) :
    t.world.store.Beneath g cells own (t.holding ops).stack.toList := by
  rw [Thread.holding, Thread.toList_stack_above, hs.stack]
  cases h with
  | main => exact .nil
  | @func own id info sig hfunc henters h =>
    obtain ⟨frame, hframe, hhead⟩ := hs.lineage.func_eq
    rw [hfunc, Output.chain, (hcode.nest henters.info henters.ended).1, List.head?_cons] at hhead
    exact .cons h hframe hhead henters (hs.base frame hframe) (hs.args id sig hfunc henters.sig).2

/-! ## Moments -/

/-- What a machine has at a moment is typed; code that runs is that of the body whose stretch it lies
in. -/
inductive Moment.Typed (g : Setting) (most : Nat) (own : List Nat) : Moment → Prop
  | code {room ctx stop offset first : Nat} {cells : Array Ty} {b : Body} {below args ops : List Value}
    {τ τ' : List Slot} {t : Thread} {is : List Instr} (hroom : room + t.depth = most)
    (hcovers : g.out.program.Covers b.func first stop) (hle : first ≤ offset)
    (hs : Standing g cells b ctx below args τ t ops)
    (howns : b.Owns g cells t.world.store ctx below own) (hflow : Flow g b τ is τ')
    (hreads : g.out.program.Reads offset is) (hstop : stop = offset + is.length) :
    Typed g most own (.code room ctx stop offset (t.holding ops))
  | call {room id parent : Nat} {cells : Array Ty} {f : FuncInfo} {sig : Signature}
    {args : List Value} {t : Thread} (hroom : room + t.depth = most)
    (ht : t.world.store.Typed g cells) (henters : g.Enters id f sig)
    (hparent : t.world.store.Lineage parent (g.out.nest id).tail)
    (hargs : AreOf g cells t.world.store args sig.params)
    (hbeneath : t.world.store.Beneath g cells own t.stack.toList) :
    Typed g most own (.call room id parent (t.above args))
  | host {room : Nat} {cells : Array Ty} {w : World} (hroom : room + w.store.hostDepth = most)
    (hw : w.store.Typed g cells) : Typed g most own (.host room w)

/-- Host code that calls what it was given, on arguments of the types of the function. -/
def HostRely.Typed (may : HostRely) (g : Setting) : Prop :=
  ∀ (cells : Array Ty) (w w' : World) (c : Closure) (args : List Value), may w w' c args →
    w.store.Typed g cells → ∃ cells', w.Later g cells cells' w' ∧ c.Sound g w'.store ∧
      AreOf g cells' w'.store args c.sig.params

/-- The first instruction of typed code, for a thread that stands there. -/
theorem Flow.exists_effect {b : Body} {ctx : Nat} {args ops : List Value} {τ τ' : List Slot}
    {t : Thread} {is : List Instr} (hflow : Flow g b τ is τ')
    (hs : Standing g cells b ctx below args τ t ops) (his : is ≠ []) : ∃ i js τ₁ τ₂, is = i :: js ∧
      Standing g cells b ctx below args τ₁ t ops ∧ Effect g b τ₁ i τ₂ ∧ Flow g b τ₂ js τ' := by
  induction hflow with
  | nil => exact absurd rfl his
  | cons h hflow => exact ⟨_, _, _, _, rfl, hs, h, hflow⟩
  | widen hw _ ih => exact ih (hs.holds (hs.ops.into hw)) his

end

namespace Machine

variable {g : Setting} {D : TypeNames} {file : File} {labels : Nat} {cells : Array Ty} {m : Machine}
  {b : Body} {ctx : Nat} {below args ops : List Value} {τ τ' : List Slot} {t t' : Thread} {i : Instr}

/-- What goes on at a call of a script function can tell that it is none of a host function: it may
count steps. -/
theorem CallsScript.not_host {f : FuncValue} {name : String} {vs : List Value} {id parent : Nat}
    {u : Thread} (hcalls : m.CallsScript ctx i t id parent t')
    (h : ∀ call, (m.perform call ctx i).exec t = (m.callHost call f name vs).exec u) : False := by
  have steps (n : Nat) : u.steps = n := by
    have hsteps :
        ((m.callHost (fun _ _ => modify fun t => { t with steps := n }) f name vs).exec u).2.steps = n := by
      rw [← h, hcalls]
      rfl
    exact ((quiet_callHost f name vs).changes u).steps.symm.trans hsteps
  exact absurd ((steps 0).symm.trans (steps 1)) Nat.zero_ne_one

/-- The call that an instruction comes to is one on arguments of the types of the function. -/
theorem CallsScript.does (hm : m.Shows g) (h : i.Does g cells b ctx below args t ops τ) {id parent : Nat}
    (hcalls : m.CallsScript ctx i (t.holding ops) id parent t') :
    ∃ (τ' : List Slot) (u : Thread) (ops' vs : List Value) (f : FuncInfo) (sig : Signature),
      t' = (u.holding ops').above vs ∧ t.Later g cells cells u ∧
        Standing g cells b ctx below args τ' u ops' ∧ g.Enters id f sig ∧
        u.world.store.Lineage parent (g.out.nest id).tail ∧ AreOf g cells u.world.store vs sig.params := by
  cases h with
  | next h =>
    have hfault : (.ok () : Except (Stop RuntimeError) Unit) = .error (.fault .outOfRange) :=
      congrArg Prod.fst ((h m (fun _ _ => Task.fault .outOfRange) hm).symm.trans (hcalls _))
    cases hfault
  | @fails e u h =>
    have hpure : (.error (.error e) : Except (Stop RuntimeError) Unit) = .ok () :=
      congrArg Prod.fst ((h m (fun _ _ => pure ()) hm).symm.trans (hcalls _))
    cases hpure
  | @script τ'' u ops' vs id' parent' f sig h hlater hs henters hparent hvs =>
    obtain ⟨rfl, rfl, rfl⟩ := hcalls.holds
      (P := fun i p t => id' = i ∧ parent' = p ∧ (u.holding ops').above vs = t) (by
        unfold Task.Ensures
        rw [h m _ hm, checking_eq ⟨rfl, rfl, rfl⟩]
        trivial)
    exact ⟨τ'', u, ops', vs, f, sig, rfl, hlater, hs, henters, hparent, hvs⟩
  | host name h => exact (hcalls.not_host fun call => h m call hm).elim

theorem not_alarm_fault (x : Fault) : ¬Alarm (.fault x) := by
  rintro ⟨_, h⟩
  cases h

theorem not_alarm_of {c : Cause} (hc : c ≠ .defect .scopeDistance) : ¬Alarm (.error (.of c)) := by
  rintro ⟨_, h⟩
  cases h
  exact hc rfl

/-- Where host code only checks what it finds, and finds it, there is no alarm. -/
theorem invoke_checks {P : World → Prop} {w : World} (hP : P w) {bodies : Array HostBody}
    (hbodies : ∀ body ∈ bodies, body = fun _ _ => checking P []) (f : FuncValue) (vs : List Value) :
    ((m.withBodies bodies).invoke (fun _ _ => checking (fun t => P t.world) ()) f vs).Ensures w
      (fun _ _ => True) fun e _ => ¬Alarm e := by
  have counted (us : List Value) (w : World) : Task.Ensures (
      if us.length ≠ f.sig.results.length then do
        HostTask.fail (.resultCount us.length f.sig.results.length)
        pure us
      else pure us : HostTask (List Value)) w (fun _ _ => True) fun e _ => ¬Alarm e := by
    split
    · exact not_alarm_of (fun h => by cases h)
    · trivial
  have checked : Task.Ensures (HostTask.ofExcept (Natives.checkArgs f.sig vs)) w (fun _ w' => w' = w)
      fun e _ => ¬Alarm e := by
    unfold Natives.checkArgs
    split
    · exact not_alarm_of (fun h => by cases h)
    · split
      · exact not_alarm_of (fun h => by cases h)
      · rfl
  unfold invoke
  rw [show Natives.hostNesting = 9999 + 1 from rfl, Natives.invoke]
  refine checked.bind ?_
  rintro - w rfl
  obtain ⟨sig, i | c⟩ := f
  · refine Task.ensures_bind.2 (Task.ensures_expect.2 ⟨fun body hbody => ?_, fun _ => not_alarm_fault _⟩)
    rw [hbodies body (Array.mem_of_getElem? hbody)]
    refine Task.Ensures.bind (Q := fun _ _ => True) ?_ fun us w' _ => counted us w'
    unfold Task.Ensures
    rw [checking_eq hP]
    trivial
  · refine Task.Ensures.bind (Q := fun _ _ => True) ?_ fun us w' _ => counted us w'
    cases hfunc : (m.withBodies bodies).program.func c.func with
    | error x =>
      unfold callFresh
      rw [hfunc]
      exact not_alarm_fault x
    | ok f =>
      by_cases hlength : vs.length = f.numIn
      · have hcheck := checking_eq (a := ()) (P := fun t : Thread => P t.world)
          (s := ⟨w, vs.toArray, 0, w.store.hostDepth⟩) hP
        unfold Task.Ensures
        rw [exec_callFresh _ c vs w hfunc hlength, hcheck]
        trivial
      · unfold callFresh
        rw [hfunc]
        refine Task.ensures_bind.2 ?_
        show Task.Ensures (if vs.length ≠ f.numIn then _ else _) w _ _
        rw [if_pos hlength]
        exact not_alarm_of (fun h => by cases h)

theorem callHost_checks {P : World → Prop} (hP : P (t.world.publishing t.depth)) {bodies : Array HostBody}
    (hbodies : ∀ body ∈ bodies, body = fun _ _ => checking P []) (f : FuncValue) (name : String)
    (vs : List Value) :
    ((m.withBodies bodies).callHost (fun _ _ => checking (fun t => P t.world) ()) f name vs).Ensures t
      (fun _ _ => True) fun e _ => ¬Alarm e := by
  have hinvoke := invoke_checks (m := m) hP hbodies f vs
  have hworld : (Run.onWorld (HostTask.atDepth t.depth ((m.withBodies bodies).invoke
      (fun _ _ => checking (fun t => P t.world) ()) f vs))).Ensures t (fun _ _ => True)
        fun e _ => ¬Alarm e := by
    unfold Task.Ensures at hinvoke ⊢
    rw [Run.exec_onWorld, HostTask.exec_atDepth]
    generalize Task.exec _ _ = x at hinvoke ⊢
    obtain ⟨e | us, w⟩ := x
    · exact hinvoke
    · trivial
  unfold callHost
  refine Task.ensures_bind.2 (Task.ensures_get.2 ?_)
  refine (Task.Ensures.mapError hworld (fun e _ he => ?_) fun x _ _ => not_alarm_fault x).bind
    fun us t' _ => ?_
  · rintro ⟨trace, h⟩
    have hcause : e.cause = .defect .scopeDistance := congrArg RuntimeError.cause (Stop.error.inj h)
    exact he ⟨e.trace, by rw [← hcause]⟩
  · trivial

/-- A host function that is entered finds a typed world. -/
theorem EntersHost.does (hm : m.Shows g) (h : i.Does g cells b ctx below args t ops τ)
    {f : FuncValue} {name : String} {vs : List Value}
    (henters : m.EntersHost ctx i (t.holding ops) f name vs t') (htakes : m.TakesUp f vs) : (t'.world.publishing t'.depth).store.Typed g cells ∧ t'.depth = t.depth := by
  have hdepth : t'.depth = (t.holding ops).depth := depth_of_callsHost henters.calls
  refine ⟨henters.holds htakes (P := fun w => w.store.Typed g cells) fun bodies hbodies => ?_, hdepth⟩
  have hm' := hm.withBodies bodies
  cases h with
  | next h =>
    unfold Task.Ensures
    rw [h _ _ hm']
    trivial
  | fails h he =>
    unfold Task.Ensures
    rw [h _ _ hm']
    rintro ⟨trace, heq⟩
    cases heq
    obtain hpermitted | ⟨-, hcause⟩ := he
    · cases hpermitted
    · cases hcause
  | @script τ'' u ops' vs' id parent f' sig h hlater hs' =>
    have hcheck := checking_eq (a := ()) (P := fun t : Thread => t.world.store.Typed g cells)
      (s := (u.holding ops').above vs') hs'.typed
    unfold Task.Ensures
    rw [h _ _ hm', hcheck]
    trivial
  | @host τ'' u ops' vs' f' name' h hlater hs' =>
    have hchecks := callHost_checks (m := m) (t := u.holding ops') (P := fun w => w.store.Typed g cells)
      (hs'.typed.publishing _) hbodies f' name' vs'
    unfold Task.Ensures at hchecks ⊢
    rwa [h _ _ hm']

/-- What an instruction of typed code does, also if it is a return. -/
theorem exists_does (hg : g.Consistent D) (hn : g.out.registry.natives.Typed g)
    (h : Effect g b τ i τ') (hs : Standing g cells b ctx below args τ t ops) :
    ∃ σ, i.Does g cells b ctx below args t ops σ := by
  cases hreturn : Balance.isReturn i with
  | false => exact ⟨τ', h.does hg hn hreturn hs⟩
  | true =>
    have hidle (m : Machine) (call : Caller) : m.perform call ctx i = pure () := by
      cases i <;> first | rfl | cases hreturn
    exact ⟨τ, .next (fun m call _ => by rw [hidle]; rfl) (.refl hs.typed) hs fun _ => rfl⟩

/-- The instruction that a thread comes to is typed. -/
theorem Fetches.stands (hm : m.program = g.out.program) {stop offset : Nat} {is : List Instr}
    (hs : Standing g cells b ctx below args τ t ops) (hflow : Flow g b τ is τ')
    (hreads : g.out.program.Reads offset is) (hstop : stop = offset + is.length)
    (hi : m.Fetches stop offset (t.holding ops) i t') :
    ∃ (u : Thread) (js : List Instr) (τ₁ τ₂ : List Slot), t' = u.holding ops ∧ t.Later g cells cells u ∧
      Standing g cells b ctx below args τ₁ u ops ∧ Effect g b τ₁ i τ₂ ∧ Flow g b τ₂ js τ' ∧
      g.out.program.Reads (offset + 1) js ∧ stop = offset + 1 + js.length := by
  have hbefore := hi.before
  have his : is ≠ [] := by
    rintro rfl
    simp at hstop
    omega
  obtain ⟨j, js, τ₁, τ₂, rfl, hs₁, heffect, hrest⟩ := hflow.exists_effect hs his
  obtain ⟨hj, hreads⟩ := hreads
  obtain rfl : j = i := by
    have hinstr := hi.instr
    rw [hm, hj] at hinstr
    exact Option.some.inj hinstr
  obtain ⟨cells', -, rfl, rfl⟩ := (typed_tick (m := m) (t := t.holding ops) hs.typed).ok hi.tick
  have hlater : t.Later g cells' cells' { t with steps := t.steps + 1 } := ⟨.refl hs.typed, rfl⟩
  refine ⟨{ t with steps := t.steps + 1 }, js, τ₁, τ₂, rfl, hlater, hs₁.later hlater rfl, heffect, hrest,
    hreads, ?_⟩
  rw [List.length_cons] at hstop
  omega

/-- A function that is entered on arguments of its types runs typed code in a frame of its own. -/
theorem typed_entered (h : g.Compiled D file labels) (hm : m.Typed g) {own : List Nat}
    {room id parent entry stop frame : Nat} {f : FuncInfo} {t₁ t₂ : Thread}
    (hx : (Moment.call (room + 1) id parent t).Typed g m.limits.callDepth own)
    (hf : m.program.func id = .ok f) (hentry : f.entry = some entry) (hstop : f.stop = some stop)
    (hdescend : (m.descend f.name).exec t = (.ok (), t₁))
    (hframe : (m.openFrame id parent f).exec t₁ = (.ok frame, t₂)) :
    (Moment.code room frame stop entry t₂).Typed g m.limits.callDepth (frame :: own) := by
  cases hx with
  | @call _ _ _ cells f' sig args t hroom ht henters hparent hargs hbeneath =>
    obtain rfl : f' = f := by
      rw [hm.program, Program.func_eq_ok, henters.info] at hf
      exact Option.some.inj hf
    obtain @⟨b, entry', stop', hparams, -, -, hbody, hentry', hstop', is, hreads, hlength, hflow⟩ :=
      h.typed_func henters.info henters.ended henters.sig
    cases hentry.symm.trans hentry'
    cases hstop.symm.trans hstop'
    obtain ⟨vars, hvars, hzeros⟩ := hm.frames id f' henters.info
    rw [exec_descend] at hdescend
    split at hdescend
    · cases hdescend
    cases hdescend
    have hnumIn : f'.numIn = args.length := by
      rw [FuncInfo.numIn, hparams, List.Forall₂.length_eq hargs]
    have hsize : f'.numIn ≤ (({ t with depth := t.depth + 1 } : Thread).above args).stack.size := by
      rw [hnumIn, ← Array.length_toList, Thread.toList_stack_above, List.length_append]
      exact Nat.le_add_left ..
    cases (exec_openFrame_eq (m := m) parent hsize hvars).symm.trans hframe
    have hs := standing_openFrame h (t := { t with depth := t.depth + 1 }) ht henters hparent hargs hbody
      hzeros
    have hroom' : room + (t.depth + 1) = m.limits.callDepth := by omega
    have hcode : Moment.Typed g m.limits.callDepth (t.world.store.frames.size :: own) _ :=
      .code hroom' (hbody.func ▸ .func henters.info hentry hstop) (Nat.le_refl _) hs
        (.func hbody.func henters (hbeneath.mono (.refl _) (.push _ _))) hflow hreads hlength
    rw [Thread.holding_nil] at hcode
    exact hcode

/-- All that a run visits is typed. -/
theorem typed_of_meets (h : g.Compiled D file labels) (hm : m.Typed g) {w : World} {may : HostRely}
    (hw : w.store.Typed g cells) (hmay : may.Typed g) {own : List Nat} {x : Moment}
    (hx : m.Meets may w own x) : x.Typed g m.limits.callDepth own := by
  induction hx with
  | start =>
    obtain ⟨is, hreads, hend, hflow⟩ := h.flows_main
    have hs := standing_entered h hm hw
    rw [← Thread.holding_nil (t := ⟨m.entered w, #[], 0, 0⟩)]
    exact .code rfl (hm.program ▸ .main) (Nat.le_refl _) hs (.main rfl) hflow hreads
      (by rw [hm.program, hend])
  | next _ hi hreturn hstep ih =>
    cases ih with
    | code hroom hcovers hle hs howns hflow hreads hstop =>
      obtain ⟨u, js, τ₁, τ₂, rfl, hlater, hs₁, heffect, hrest, hreads, hstop⟩ :=
        hi.stands hm.program hs hflow hreads hstop
      have hcall := typed_call h hm (hlater.depth.symm ▸ hroom)
      obtain ⟨cells', hlater', v, args', ops', rfl, hs₂, -⟩ :=
        (typed_does h.code hm hcall hs₁ (heffect.does h.consistent hm.typed hreturn hs₁)).ok hstep
      have hlater'' : Thread.Later g _ _ cells' v := hlater.trans ⟨hlater'.world, hlater'.depth⟩
      refine .code (hlater''.depth.symm ▸ hroom) hcovers (Nat.le_succ_of_le hle) hs₂ ?_ hrest hreads hstop
      exact howns.mono hlater''.world.cells hlater''.world.grows
  | script _ hi hcalls ih =>
    cases ih with
    | code hroom _ _ hs howns hflow hreads hstop =>
      obtain ⟨u, js, τ₁, τ₂, rfl, hlater, hs₁, heffect, -⟩ := hi.stands hm.program hs hflow hreads hstop
      obtain ⟨σ, hdoes⟩ := exists_does h.consistent hm.typed heffect hs₁
      obtain ⟨σ', v, ops', vs, f, sig, rfl, hlater', hs₂, henters, hparent, hvs⟩ :=
        hcalls.does hm.shows hdoes
      have hlater'' := hlater.trans hlater'
      refine .call (hlater''.depth.symm ▸ hroom) hs₂.typed henters hparent hvs ?_
      exact hs₂.beneath h.code (howns.mono hlater''.world.cells hlater''.world.grows)
  | enter _ hf hentry hstop hdescend hframe ih => exact typed_entered h hm ih hf hentry hstop hdescend hframe
  | host _ hi henters htakes ih =>
    cases ih with
    | code hroom _ _ hs howns hflow hreads hstop =>
      obtain ⟨u, js, τ₁, τ₂, rfl, hlater, hs₁, heffect, -⟩ := hi.stands hm.program hs hflow hreads hstop
      obtain ⟨σ, hdoes⟩ := exists_does h.consistent hm.typed heffect hs₁
      obtain ⟨htyped, hdepth⟩ := henters.does hm.shows hdoes htakes
      exact .host ((hdepth.trans hlater.depth).symm ▸ hroom) htyped
  | @callback own room f w₁ w₂ c args _ hmay' hf hargs ih =>
    cases ih with
    | host hroom hw₁ =>
      obtain ⟨cells', hlater, hc, hvs⟩ := hmay _ _ _ _ _ hmay' hw₁
      obtain ⟨f, hf, hended⟩ := hc.ended
      have hcall : Moment.Typed g m.limits.callDepth [] (.call _ c.func c.parent
          ((⟨w₂, #[], 0, w₂.store.hostDepth⟩ : Thread).above args)) :=
        .call (hlater.depth.symm ▸ hroom) hlater.typed ⟨hf, hended, hc.sig⟩ hc.nested hvs .nil
      simpa [Thread.above] using hcall

end Machine

/-! ## What fits -/

/-- Every variable of every frame fits its type. -/
def Store.SlotsFit (s : Store) (p : Program) : Prop :=
  ∀ (f i id : Nat) (frame : Frame) (d : Var), s.frames[f]? = some frame →
    (p.frameVars frame.func)[i]? = some id → p.vars[id]? = some d →
    ∃ v, frame.vars[i]? = some v ∧ v.fits d.ty = true

/-- The topmost values below a height are arguments that fit the types. -/
def Stack.ArgsFit (s : Stack) (height : Nat) (types : List Ty) : Prop :=
  types.length ≤ height ∧ ∀ (i : Nat) (t : Ty), types[i]? = some t →
    ∃ v, s[height - (types.length - i)]? = some v ∧ v.fits t = true

/-- The frame is that of a function, whose arguments fit its parameters. -/
def Thread.ParamsFit (t : Thread) (p : Program) (f : Nat) : Prop :=
  ∃ (frame : Frame) (id : Nat) (sig : Signature), t.world.store.frames[f]? = some frame ∧
    frame.func = some id ∧ p.sig? id = some sig ∧ t.stack.ArgsFit frame.base sig.params

/-- Variables fit their types, and so do the parameters of the functions that run in the frames `own`;
code that runs in the frame of a function runs in the first of them. -/
def Moment.Fits (p : Program) (own : List Nat) : Moment → Prop
  | .code _ ctx _ _ t => t.world.store.SlotsFit p ∧ (∀ f ∈ own, t.ParamsFit p f) ∧
    ∀ frame id, t.world.store.frames[ctx]? = some frame → frame.func = some id → own.head? = some ctx
  | .call _ id _ t => t.world.store.SlotsFit p ∧ (∀ f ∈ own, t.ParamsFit p f) ∧
    ∃ sig, p.sig? id = some sig ∧ t.stack.ArgsFit t.stack.size sig.params
  | .host _ w => w.store.SlotsFit p

/-- What a run from the world `w` keeps to, where host code makes the calls that it may and stops by
itself in the ways of `stops`. -/
structure Machine.TypeSafe (m : Machine) (p : Program) (may : HostRely) (w : World)
    (stops : Stop Cause → Prop) (hosts : Prop) : Prop where
  fits : ∀ {own : List Nat} {x : Moment}, m.Meets may w own x → x.Fits p own
  /-- An error is one of a host function, or one that is left to typed code. -/
  ends : m.run.Ensures w (fun _ w' => w'.store.SlotsFit p) fun e w' => w'.store.SlotsFit p ∧
    match e.why with
    | .error c => stops (.error c) ∨ c.Permitted
    | .fault x => stops (.fault x) ∨ x = .outOfRange ∧ hosts

section

variable {g : Setting} {D : TypeNames} {file : File} {labels : Nat} {cells : Array Ty} {s : Store}

theorem Store.Typed.slotsFit (h : s.Typed g cells) : s.SlotsFit g.out.program := by
  intro f i id frame d hframe hid hd
  obtain ⟨v, hv, hhas⟩ := h.places _ _ (Standing.typeAt?_slot hframe hid hd)
  rw [Store.load?, hframe] at hv
  exact ⟨v, hv, hhas.fits⟩

theorem AreOf.argsFit {below args rest : List Value} {types : List Ty} {stack : Stack}
    (h : AreOf g cells s args types) (hstack : stack.toList = below ++ args ++ rest) :
    stack.ArgsFit (below.length + args.length) types := by
  have hlength := List.Forall₂.length_eq h
  refine ⟨by omega, fun i t ht => ?_⟩
  obtain ⟨v, hv, hhas⟩ := exists_getElem?_of_forall₂ (List.Forall₂.flip h) ht
  have hi := (List.getElem?_eq_some_iff.1 hv).1
  refine ⟨v, ?_, Value.Has.fits hhas⟩
  rw [← Array.getElem?_toList, hstack, show below.length + args.length - (types.length - i) =
    below.length + i by omega, List.append_assoc, List.getElem?_append_right (Nat.le_add_right ..),
    Nat.add_sub_cancel_left, List.getElem?_append_left hi, hv]

theorem Store.Beneath.paramsFit {own : List Nat} {t : Thread} {vs rest : List Value}
    (h : t.world.store.Beneath g cells own vs) (hstack : t.stack.toList = vs ++ rest) :
    ∀ f ∈ own, t.ParamsFit g.out.program f := by
  generalize hs : t.world.store = s at h
  induction h generalizing rest with
  | nil => exact fun f hf => absurd hf List.not_mem_nil
  | @cons own f id frame info sig below args ops _ hframe hfunc henters hbase hargs ih =>
    rw [List.append_assoc, List.append_assoc] at hstack
    rw [List.forall_mem_cons]
    refine ⟨⟨frame, id, sig, hs ▸ hframe, hfunc, henters.sig, ?_⟩, ih hstack⟩
    rw [hbase]
    exact hargs.argsFit (hstack.trans (List.append_assoc ..).symm)

/-- What is typed fits. -/
theorem Moment.Typed.fits (hcode : FileCode g.out file) {most : Nat} {own : List Nat} {x : Moment}
    (h : x.Typed g most own) : x.Fits g.out.program own := by
  cases h with
  | @code room ctx _ _ _ cells b below args ops τ τ' t is hroom _ _ hs howns =>
    have hbeneath := hs.beneath hcode howns
    refine ⟨hs.typed.slotsFit, Store.Beneath.paramsFit (t := t.holding ops) hbeneath
      (List.append_nil _).symm, fun frame id hframe hfunc => ?_⟩
    cases howns with
    | main hmain =>
      obtain ⟨frame', hframe', hnone⟩ := hs.lineage.func_eq
      cases hframe'.symm.trans hframe
      rw [hmain, Output.chain, hfunc] at hnone
      cases hnone
    | func => rfl
  | @call room id parent cells f sig args t hroom ht henters hparent hargs hbeneath =>
    have hstack : (t.above args).stack.toList = t.stack.toList ++ args := Thread.toList_stack_above
    refine ⟨ht.slotsFit, Store.Beneath.paramsFit (t := t.above args) hbeneath hstack, sig, henters.sig, ?_⟩
    have hfit := hargs.argsFit (hstack.trans (List.append_nil _).symm)
    rwa [← List.length_append, ← hstack, Array.length_toList] at hfit
  | host _ hw => exact hw.slotsFit

/-- A typed machine is type-safe. -/
theorem Machine.typeSafe {m : Machine} {w : World} {may : HostRely} (h : g.Compiled D file labels)
    (hm : m.Typed g) (hw : w.store.Typed g cells) (hmay : may.Typed g) (hlax : ¬g.lax) :
    m.TypeSafe g.out.program may w g.stops (∃ i sig, g.host i = some sig) where
  fits hx := (typed_of_meets h hm hw hmay hx).fits h.code
  ends := by
    refine (typed_run h hm hw).mono (fun _ _ ⟨_, hlater, _⟩ => hlater.typed.slotsFit)
      fun e w' ⟨⟨_, hlater⟩, he⟩ => ⟨hlater.typed.slotsFit, ?_⟩
    cases he with
    | host he =>
      cases e with
      | error | fault => exact .inl he
    | fails he => exact .inr (he.resolve_right fun h => hlax h.1)
    | nesting hhost => exact .inr ⟨rfl, _, _, hhost⟩

end

end StackScript
