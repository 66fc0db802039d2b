import StackScript.Proofs.Running.Limits

/-!
# States that a run visits

`Machine.Visits` are the moments that a run comes to, with host code entered in a world that is seen
for certain: host code that would look at it would find this one. So what holds wherever host code is
entered can be told from what an instruction does with host functions that check it
(`Machine.EntersHost.holds`), and likewise for calls of script functions
(`Machine.CallsScript.holds`).
-/

namespace StackScript

namespace Machine

variable (m : Machine)

/-- The instruction comes to a call of a host function in a world, whatever calls and host functions
do. -/
def EntersHost (ctx : Nat) (i : Instr) (t : Thread) (f : FuncValue) (name : String)
    (args : List Value) (t' : Thread) : Prop :=
  ∀ (call : Caller) (bodies : Array HostBody), ((m.withBodies bodies).perform call ctx i).exec t =
    ((m.withBodies bodies).callHost call f name args).exec t'

/-- A call of a function value from the host is taken up. -/
structure TakesUp (f : FuncValue) (args : List Value) : Prop where
  fits : Natives.checkArgs f.sig args = .ok ()
  count : ∀ c, f.callee = .script c → ∃ g, m.program.func c.func = .ok g ∧ args.length = g.numIn

/-- The moments that a run from the world `w` visits, with the frames of the active functions at each,
the innermost first. -/
inductive Visits (may : HostRely) (w : World) : List Nat → Moment → Prop
  | start : Visits may w []
    (.code m.limits.callDepth w.store.frames.size m.program.mainEnd 0 ⟨m.entered w, #[], 0, 0⟩)
  | next {active : List Nat} {room ctx stop offset : Nat} {i : Instr} {t t₁ t₂ : Thread}
    (h : Visits may w active (.code room ctx stop offset t)) (hi : m.Fetches stop offset t i t₁)
    (hreturn : Balance.isReturn i = false)
    (hstep : (m.perform (m.call room) ctx i).exec t₁ = (.ok (), t₂)) :
    Visits may w active (.code room ctx stop (offset + 1) t₂)
  | script {active : List Nat} {room ctx stop offset id parent : Nat} {i : Instr} {t t₁ t₂ : Thread}
    (h : Visits may w active (.code room ctx stop offset t)) (hi : m.Fetches stop offset t i t₁)
    (hcalls : m.CallsScript ctx i t₁ id parent t₂) :
    Visits may w active (.call room id parent t₂)
  | enter {active : List Nat} {room id parent entry stop frame : Nat} {f : FuncInfo}
    {t t₁ t₂ : Thread} (h : Visits may w active (.call (room + 1) id parent t))
    (hf : m.program.func id = .ok f) (hentry : f.entry = some entry) (hstop : f.stop = some stop)
    (hdescend : (m.descend f.name).exec t = (.ok (), t₁))
    (hframe : (m.openFrame id parent f).exec t₁ = (.ok frame, t₂)) :
    Visits may w (frame :: active) (.code room frame stop entry t₂)
  | host {active : List Nat} {room ctx stop offset : Nat} {i : Instr} {f : FuncValue}
    {name : String} {args : List Value} {t t₁ t₂ : Thread}
    (h : Visits may w active (.code room ctx stop offset t)) (hi : m.Fetches stop offset t i t₁)
    (henters : m.EntersHost ctx i t₁ f name args t₂) (htakes : m.TakesUp f args) :
    Visits may w active (.host room (t₂.world.publishing t₂.depth))
  | callback {active : List Nat} {room : Nat} {f : FuncInfo} {w₁ w₂ : World} {c : Closure}
    {args : List Value} (h : Visits may w active (.host room w₁)) (hmay : may w₁ w₂ c args)
    (hf : m.program.func c.func = .ok f) (hargs : args.length = f.numIn) :
    Visits may w active (.call room c.func c.parent ⟨w₂, args.toArray, 0, w₂.store.hostDepth⟩)

variable {m} {may : HostRely} {w : World} {active : List Nat} {x : Moment} {ctx : Nat} {i : Instr}
  {t t' : Thread} {f : FuncValue} {name : String} {args : List Value}

theorem EntersHost.calls (h : m.EntersHost ctx i t f name args t') : m.CallsHost ctx i t f name args t' :=
  fun call => h call m.natives.bodies

/-- What a run visits it reaches. -/
theorem Visits.reaches (h : m.Visits may w active x) : m.Reaches may w active x := by
  induction h with
  | start => exact .start
  | next _ hi hreturn hstep ih => exact ih.next hi hreturn hstep
  | script _ hi hcalls ih => exact ih.script hi hcalls
  | enter _ hf hentry hstop hdescend hframe ih => exact ih.enter hf hentry hstop hdescend hframe
  | host _ hi henters _ ih => exact ih.host hi henters.calls
  | callback _ hmay hf hargs ih => exact ih.callback hmay hf hargs

/-! ## Checks -/

/-- The error by which a check makes itself known. -/
def Alarm (e : Stop RuntimeError) : Prop := ∃ trace, e = .error ⟨.defect .scopeDistance, trace⟩

open Classical in
/-- Ends with the error unless something holds of the state. -/
noncomputable def checking {α σ : Type} (P : σ → Prop) (a : α) : Task RuntimeError σ α :=
  ExceptT.mk fun s => (if P s then .ok a else .error (.error (.of (.defect .scopeDistance))), s)

theorem checking_eq {α σ : Type} {P : σ → Prop} {a : α} {s : σ} (h : P s) :
    (checking P a).exec s = (.ok a, s) := by
  show ((@ite _ (P s) (Classical.propDecidable _) _ _ : Except _ α), s) = _
  rw [if_pos h]

theorem checking_error {α σ : Type} {P : σ → Prop} {a : α} {s : σ} (h : ¬P s) :
    (checking P a).exec s = (.error (.error (.of (.defect .scopeDistance))), s) := by
  show ((@ite _ (P s) (Classical.propDecidable _) _ _ : Except _ α), s) = _
  rw [if_neg h]

/-- What a call of a script function checks holds where it is made, if there is no alarm. -/
theorem CallsScript.holds {id parent : Nat} (h : m.CallsScript ctx i t id parent t')
    {P : Nat → Nat → Thread → Prop}
    (hends : (m.perform (fun id parent => checking (P id parent) ()) ctx i).Ensures t (fun _ _ => True)
      fun e _ => ¬Alarm e) : P id parent t' := by
  unfold Task.Ensures at hends
  rw [h] at hends
  by_contra hnot
  rw [checking_error hnot] at hends
  exact hends ⟨[], rfl⟩

/-- What host functions check holds where one is entered, if there is no alarm. -/
theorem EntersHost.holds (h : m.EntersHost ctx i t f name args t') (htakes : m.TakesUp f args)
    {P : World → Prop}
    (hends : ∀ bodies : Array HostBody, (∀ body ∈ bodies, body = fun _ _ => checking P []) →
      ((m.withBodies bodies).perform (fun _ _ => checking (fun t => P t.world) ()) ctx i).Ensures t
        (fun _ _ => True) fun e _ => ¬Alarm e) : P (t'.world.publishing t'.depth) := by
  by_contra hnot
  have hinvoke (bodies : Array HostBody) (hbodies : ∀ index, f.callee = .host index →
      bodies[index]? = some fun _ _ => checking P []) :
      ∃ w', ((m.withBodies bodies).invoke (fun _ _ => checking (fun t => P t.world) ()) f args).exec
        (t'.world.publishing t'.depth) = (.error (.error (.of (.defect .scopeDistance))), w') := by
    unfold invoke
    rw [show Natives.hostNesting = 9999 + 1 from rfl, Natives.invoke, htakes.fits]
    obtain ⟨sig, index | c⟩ := f
    · refine ⟨t'.world.publishing t'.depth,
        (Task.exec_bind_ok (Task.exec_pure () _)).trans ?_⟩
      have hbody : (Task.expect (m.withBodies bodies).natives.bodies[index]? : HostTask HostBody) =
          pure fun _ _ => checking P [] := by
        show (Task.expect bodies[index]? : HostTask HostBody) = _
        rw [hbodies index rfl]
        rfl
      dsimp only
      rw [hbody, pure_bind]
      exact Task.exec_bind_error (checking_error hnot)
    · obtain ⟨g, hg, hlength⟩ := htakes.count c rfl
      have hfresh := exec_callFresh (m := m.withBodies bodies)
        (fun _ _ => checking (fun t => P t.world) ()) c args (t'.world.publishing t'.depth) hg hlength
      have hcheck := checking_error (a := ()) (P := fun t : Thread => P t.world)
        (s := ⟨t'.world.publishing t'.depth, args.toArray, 0,
          (t'.world.publishing t'.depth).store.hostDepth⟩) hnot
      rw [hcheck] at hfresh
      exact ⟨_, (Task.exec_bind_ok (Task.exec_pure () _)).trans (Task.exec_bind_error hfresh)⟩
  have halarm (bodies : Array HostBody) (hbodies : ∀ index, f.callee = .host index →
      bodies[index]? = some fun _ _ => checking P []) :
      ∃ e s', ((m.withBodies bodies).callHost (fun _ _ => checking (fun t => P t.world) ()) f name
        args).exec t' = (.error e, s') ∧ Alarm e := by
    obtain ⟨w', hw'⟩ := hinvoke bodies hbodies
    have hrun : ((Run.onWorld (HostTask.atDepth t'.depth ((m.withBodies bodies).invoke
        (fun _ _ => checking (fun t => P t.world) ()) f args))).within name).exec t' =
        (.error (.error ⟨.defect .scopeDistance, [name]⟩),
          { t' with world := w'.publishing t'.world.store.hostDepth }) := by
      have hworld : (Run.onWorld (HostTask.atDepth t'.depth ((m.withBodies bodies).invoke
          (fun _ _ => checking (fun t => P t.world) ()) f args))).exec t' =
          (.error (.error (.of (.defect .scopeDistance))),
            { t' with world := w'.publishing t'.world.store.hostDepth }) := by
        rw [Run.exec_onWorld, HostTask.exec_atDepth, hw']
      unfold Run.within
      rw [Task.exec_mapError, hworld]
      rfl
    exact ⟨_, _, (Task.exec_bind_ok (Task.exec_get t')).trans (Task.exec_bind_error hrun), [name], rfl⟩
  obtain ⟨n, hn⟩ : ∃ n, ∀ index, f.callee = .host index → index < n := by
    cases hf : f.callee with
    | host index =>
      exact ⟨index + 1, fun index' h' => by cases h'; exact Nat.lt_succ_self _⟩
    | script c => exact ⟨0, fun _ h' => by cases h'⟩
  obtain ⟨e, s', hexec, hbad⟩ := halarm (Array.replicate n fun _ _ => checking P []) fun index hindex => by
    rw [Array.getElem?_replicate, if_pos (hn index hindex)]
  have hgood := hends (Array.replicate n fun _ _ => checking P [])
    fun body hbody => (Array.mem_replicate.1 hbody).2
  unfold Task.Ensures at hgood
  rw [h, hexec] at hgood
  exact hgood hbad

end Machine

end StackScript
