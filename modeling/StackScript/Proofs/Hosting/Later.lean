import StackScript.Proofs.Running.Linking
import StackScript.Proofs.Translation.Origins

/-!
# Programs under later registrations

Code that the compiler gives goes only to entries of the registry that were there
(`FileCode.hosted`), and these stay where they are. So a program that was compiled before other
registrations links and runs after them as it did before (`Registry.history_keeps`).
-/

namespace StackScript

/-- Code of the program goes only to entries that are there. -/
def Program.Hosted (p : Program) (n : Natives) : Prop :=
  ∀ (func : Option Nat) (first stop offset : Nat) (i : Instr) (s : NativeSymbol),
    p.Covers func first stop → first ≤ offset → offset < stop → p.instr? offset = some i →
    i.native? = some s → (n.lookup? s).isSome

namespace Instr

variable {i : Instr}

theorem native?_of_address? {a : Scope × Nat} (h : i.address? = some a) : i.native? = none := by
  cases i <;> first | rfl | cases h

theorem native?_of_entry? {e : Bool × Nat} (h : i.entry? = some e) : i.native? = none := by
  cases i <;> first | rfl | cases h

end Instr

theorem FileCode.hosted {o : Output} {f : File} (h : FileCode o f) :
    o.program.Hosted o.registry.natives := by
  intro func first stop offset i s hcovers hle hlt hi hs
  obtain ⟨b, -, hfrom⟩ := h.from hcovers hle hlt hi
  cases hfrom with
  | native hs' hentry => exact Option.some.inj (hs'.symm.trans hs) ▸ hentry
  | plain _ _ hnone => cases hnone.symm.trans hs
  | var _ _ _ haddress => cases (Instr.native?_of_address? haddress).symm.trans hs
  | func _ _ _ _ hentry | literal _ _ _ _ hentry =>
    cases (Instr.native?_of_entry? hentry).symm.trans hs

/-- The instruction goes only to entries that are there. -/
def Instr.Hosted (n : Natives) (i : Instr) : Prop := ∀ s, i.native? = some s → (n.lookup? s).isSome

/-- So do the words from one offset up to another. -/
def Program.HostedFrom (p : Program) (n : Natives) (stop offset : Nat) : Prop :=
  ∀ o i, offset ≤ o → o < stop → p.instr? o = some i → i.Hosted n

theorem Program.Hosted.covers {p : Program} {n : Natives} (h : p.Hosted n) {func : Option Nat}
    {first stop : Nat} (hcovers : p.Covers func first stop) : p.HostedFrom n stop first :=
  fun o i hle hlt hi s hs => h func first stop o i s hcovers hle hlt hi hs

theorem Program.HostedFrom.next {p : Program} {n : Natives} {stop offset : Nat}
    (h : p.HostedFrom n stop offset) : p.HostedFrom n stop (offset + 1) :=
  fun o i hle => h o i (by omega)

theorem Program.HostedFrom.here {p : Program} {n : Natives} {stop offset : Nat}
    (h : p.HostedFrom n stop offset) (hlt : offset < stop) {w : Word} {i : Instr}
    (hw : p.code[offset]? = some w) (hi : w.decode? = some i) : i.Hosted n :=
  h offset i (Nat.le_refl _) hlt (by rw [Program.instr?, hw, Option.bind_some, hi])

variable {n n' : Natives}

namespace Natives.Extends

theorem vars_eq (h : n.Extends n') {addr : Nat} (hs : (n.lookup? ⟨addr, .var⟩).isSome) :
    n'.vars[addr]? = n.vars[addr]? := by
  obtain ⟨v, hv⟩ := Option.isSome_iff_exists.1 (Option.isSome_map.symm.trans hs)
  rw [hv, h.vars _ _ hv]

theorem funcs_eq (h : n.Extends n') {addr : Nat} (hs : (n.lookup? ⟨addr, .func⟩).isSome) :
    n'.funcs[addr]? = n.funcs[addr]? := by
  obtain ⟨f, hf⟩ := Option.isSome_iff_exists.1 (Option.isSome_map.symm.trans hs)
  rw [hf, h.funcs _ _ hf]

theorem funcvs_eq (h : n.Extends n') {addr : Nat} (hs : (n.lookup? ⟨addr, .funcv⟩).isSome) :
    n'.funcvs[addr]? = n.funcvs[addr]? := by
  obtain ⟨f, hf⟩ := Option.isSome_iff_exists.1 (Option.isSome_map.symm.trans hs)
  rw [hf, h.funcvs _ _ hf]

end Natives.Extends

/-! ## The balance check -/

namespace Balance

variable {p : Program}

theorem effect_eq (h : n.Extends n') {i : Instr} (hi : i.Hosted n) :
    effect p (.ofNatives n') i = effect p (.ofNatives n) i := by
  cases i with
  | callNative addr =>
    show Except.ok ((n'.funcs[addr]?.map Natives.counts).map _) = _
    rw [h.funcs_eq (hi _ rfl)]
    rfl
  | callNativev arity addr =>
    show Except.ok ((n'.funcvs[addr]?.map Natives.counts).bind _) = _
    rw [h.funcvs_eq (hi _ rfl)]
    rfl
  | _ => rfl

theorem checkFrom_eq (h : n.Extends n') {numIn stop offset : Nat}
    (hcode : p.HostedFrom n stop offset) (height : Int) :
    checkFrom p (.ofNatives n') numIn stop offset height =
      checkFrom p (.ofNatives n) numIn stop offset height := by
  induction hk : stop - offset generalizing offset height with
  | zero => rw [checkFrom, if_neg (by omega), checkFrom, if_neg (by omega)]
  | succ k ih =>
    have hlt : offset < stop := by omega
    have hnext (height : Int) := ih hcode.next height (by omega)
    rw [checkFrom, if_pos hlt, checkFrom.eq_def p (.ofNatives n), if_pos hlt]
    cases hw : p.code[offset]? with
    | none => rfl
    | some w =>
      have hok {β : Type} (f : Word → Checked β) : (ofFault (.ok w) >>= f) = f w := rfl
      simp only [hok]
      cases hi : w.decode? with
      | none => rfl
      | some i => simp only [effect_eq h (hcode.here hlt hw hi), hnext]

theorem check_eq (h : n.Extends n') (hp : p.Hosted n) :
    check p (.ofNatives n') = check p (.ofNatives n) := by
  have hfunc (f : FuncInfo) (hf : f ∈ p.funcs.toList) :
      checkFunc p (.ofNatives n') f = checkFunc p (.ofNatives n) f := by
    unfold checkFunc
    cases hentry : f.entry with
    | none => rfl
    | some entry =>
      cases hstop : f.stop with
      | none => rfl
      | some stop =>
        obtain ⟨id, hid⟩ := Array.mem_iff_getElem?.1 (Array.mem_toList_iff.1 hf)
        exact congrArg (inFunction f.name) (checkFrom_eq h (hp.covers (.func hid hentry hstop)) 0)
  have hfuncs : p.funcs.toList.forM (checkFunc p (.ofNatives n')) =
      p.funcs.toList.forM (checkFunc p (.ofNatives n)) := by
    generalize p.funcs.toList = fs at hfunc
    induction fs with
    | nil => rfl
    | cons f fs ih =>
      show (checkFunc p (.ofNatives n') f >>= fun _ => fs.forM _) =
        (checkFunc p (.ofNatives n) f >>= fun _ => fs.forM _)
      rw [hfunc f List.mem_cons_self, ih fun f' hf' => hfunc f' (List.mem_cons_of_mem f hf')]
  unfold check
  rw [checkFrom_eq h (hp.covers .main), hfuncs]

end Balance

/-! ## Running -/

namespace Machine

variable {m : Machine} {call : Caller} {ctx : Nat}

/-- The machine with other tables of the registry. -/
def withNatives (m : Machine) (n : Natives) : Machine := { m with natives := n }

theorem invoke_of_bodies (hbodies : n'.bodies = n.bodies)
    (script : Closure → List Value → HostTask (List Value)) (room : Nat) : n'.invoke script room = n.invoke script room := by
  induction room with
  | zero => rfl
  | succ room ih =>
    funext f args
    unfold Natives.invoke
    rw [ih, hbodies]

theorem callHost_withNatives (hbodies : n'.bodies = m.natives.bodies) :
    (m.withNatives n').callHost call = m.callHost call := by
  funext f name args
  unfold callHost invoke withNatives
  rw [invoke_of_bodies hbodies]
  rfl

theorem perform_withNatives (h : m.natives.Extends n') (hbodies : n'.bodies = m.natives.bodies)
    {i : Instr} (hi : i.Hosted m.natives) :
    (m.withNatives n').perform call ctx i = m.perform call ctx i := by
  cases i with
  | loadNativeVar addr =>
    unfold perform
    dsimp only
    rw [show (m.withNatives n').natives.vars[addr]? = _ from h.vars_eq (hi _ rfl)]
  | callNative addr =>
    unfold perform
    dsimp only
    rw [show (m.withNatives n').natives.funcs[addr]? = _ from h.funcs_eq (hi _ rfl),
      callHost_withNatives hbodies]
  | callNativev field addr =>
    unfold perform
    dsimp only
    rw [show (m.withNatives n').natives.funcvs[addr]? = _ from h.funcvs_eq (hi _ rfl),
      callHost_withNatives hbodies]
  | pushNative addr =>
    unfold perform
    dsimp only
    rw [show (m.withNatives n').natives.funcs[addr]? = _ from h.funcs_eq (hi _ rfl)]
  | pushNativev addr =>
    unfold perform
    dsimp only
    rw [show (m.withNatives n').natives.funcvs[addr]? = _ from h.funcvs_eq (hi _ rfl)]
  | callValue arity =>
    refine congrArg (Run.pop >>= ·) (funext fun v => ?_)
    unfold callValue
    rw [callHost_withNatives hbodies]
    rfl
  | _ => rfl

theorem exec_withNatives (h : m.natives.Extends n') (hbodies : n'.bodies = m.natives.bodies)
    {stop offset : Nat} (hcode : m.program.HostedFrom m.natives stop offset) :
    (m.withNatives n').exec call ctx stop offset = m.exec call ctx stop offset := by
  induction hk : stop - offset generalizing offset with
  | zero => rw [exec, if_neg (by omega), exec, if_neg (by omega)]
  | succ k ih =>
    have hlt : offset < stop := by omega
    rw [exec, if_pos hlt, exec.eq_def m, if_pos hlt]
    refine congrArg (m.tick >>= ·) (funext fun _ => ?_)
    rw [show (m.withNatives n').program.code[offset]? = m.program.code[offset]? from rfl]
    cases hw : m.program.code[offset]? with
    | none =>
      have hstops (g : Word → Run (Option Nat)) : (Task.expect none >>= g) = Task.fault .outOfRange := rfl
      rw [hstops, hstops]
    | some w =>
      simp only [Task.expect, pure_bind]
      cases hi : w.decode? with
      | none => rfl
      | some i =>
        have hstep : (m.withNatives n').step call ctx i = m.step call ctx i := by
          unfold step
          split
          · rfl
          · rfl
          · rw [perform_withNatives h hbodies (hcode.here hlt hw hi)]
        simp only [hstep, ih hcode.next (by omega)]

theorem enter_withNatives (h : m.natives.Extends n') (hbodies : n'.bodies = m.natives.bodies)
    {entry stop : Nat} (hcode : m.program.HostedFrom m.natives stop entry) (id parent : Nat)
    (f : FuncInfo) : (m.withNatives n').enter call id parent f entry stop =
      m.enter call id parent f entry stop := by
  refine congrArg (Run.height >>= ·) (funext fun base => ?_)
  refine congrArg (m.openFrame id parent f >>= ·) (funext fun frame => ?_)
  rw [exec_withNatives h hbodies hcode]

/-- Calls are the same with later tables. -/
theorem call_withNatives (h : m.natives.Extends n') (hbodies : n'.bodies = m.natives.bodies)
    (hp : m.program.Hosted m.natives) (room : Nat) : (m.withNatives n').call room = m.call room := by
  induction room with
  | zero =>
    funext id parent
    rw [call.eq_def, call.eq_def m]
    dsimp only
    refine congrArg (Task.ofChecked (m.program.func id) >>= ·) (funext fun f => ?_)
    split
    · exact congrArg (m.descend f.name >>= ·) rfl
    · rfl
  | succ room ih =>
    funext id parent
    have hprogram : (m.withNatives n').program = m.program := rfl
    rw [call.eq_def, call.eq_def m, hprogram]
    dsimp only
    cases hf : m.program.func id with
    | error x =>
      have hstops (g : FuncInfo → Run Unit) : (Task.ofChecked (.error x) >>= g) = Task.fault x := rfl
      rw [hstops, hstops]
    | ok f =>
      simp only [Task.ofChecked, pure_bind]
      split
      · rename_i entry stop hentry hstop
        have hcode := hp.covers (.func (Program.func_eq_ok.1 hf) hentry hstop)
        refine congrArg (m.descend f.name >>= ·) (funext fun _ => ?_)
        rw [ih, enter_withNatives h hbodies hcode]
      · rfl

/-- The run is the same, too, and what becomes of functions that the host calls after it. -/
theorem run_withNatives (h : m.natives.Extends n') (hbodies : n'.bodies = m.natives.bodies)
    (hp : m.program.Hosted m.natives) :
    (m.withNatives n').run = m.run ∧ (m.withNatives n').invokeTop = m.invokeTop := by
  have hcall : (m.withNatives n').callTop = m.callTop := call_withNatives h hbodies hp _
  constructor
  · refine congrArg (HostTask.allocate _ >>= ·) (funext fun frame => ?_)
    have hmain : (m.withNatives n').exec m.callTop frame m.program.mainEnd 0 =
        m.exec m.callTop frame m.program.mainEnd 0 := exec_withNatives h hbodies (hp.covers .main)
    rw [hcall, show (m.withNatives n').program.mainEnd = m.program.mainEnd from rfl, hmain]
  · unfold invokeTop
    rw [hcall]
    unfold invoke
    exact invoke_of_bodies hbodies _ _

variable {p : Program} {limits : Limits}

theorem link_withNatives (h : n.Extends n') (hp : p.Hosted n) :
    link p limits n' = (link p limits n).map (·.withNatives n') := by
  have hbuild : build p limits n' = (build p limits n).map (·.withNatives n') := by
    unfold build
    cases p.funcs.mapM fun f => zeros p f.vars with
    | error x => rfl
    | ok frames => cases zeros p p.mainVars <;> rfl
  unfold link
  rw [Balance.check_eq h hp, hbuild]
  dsimp only
  split
  · rfl
  · rfl
  · cases build p limits n <;> rfl

/-- A program that goes only to entries that are there links with later tables as with these, and
runs the same. -/
theorem link_keeps (h : n.Extends n') (hbodies : n'.bodies = n.bodies) (hp : p.Hosted n) :
    (link p limits n').map (fun m => (m.run, m.invokeTop)) =
      (link p limits n).map fun m => (m.run, m.invokeTop) := by
  rw [link_withNatives h hp]
  cases hm : link p limits n with
  | error e => rfl
  | ok m =>
    obtain ⟨hbuilds, -⟩ := link_eq_ok.1 hm
    obtain rfl := hbuilds.program
    obtain rfl := hbuilds.natives
    obtain ⟨hrun, hinvoke⟩ := run_withNatives h hbodies hp
    show Except.ok ((m.withNatives n').run, (m.withNatives n').invokeTop) = _
    rw [hrun, hinvoke]
    rfl

end Machine

/-! ## Histories -/

theorem Natives.Addressable.of_extends (hn : n'.Addressable) (h : n.Extends n') : n.Addressable where
  vars := Nat.le_trans h.vars.size_le hn.vars
  funcs := Nat.le_trans h.funcs.size_le hn.funcs
  funcvs := Nat.le_trans h.funcvs.size_le hn.funcvs

/-- The tables, where other host functions have been made. -/
def Natives.withBodies (n : Natives) (bodies : Array HostBody) : Natives := { n with bodies }

/-- After any history of requests every name of a package stands for one symbol, and that for the
entry registered under it; tables hold functions of their own variadicity. Whatever requests follow,
symbols stand for the same entries, and programs that were compiled before link and run as they did.
And a request that fails, be it for its last item, leaves everything as it was. -/
theorem Registry.history_keeps (bodies : Array HostBody) (qs qs' : List Request)
    (hsize : (((bare bodies).after qs).after qs').natives.Addressable) :
    let r := (bare bodies).after qs
    let r' := r.after qs'
    (r.packages.map (·.1)).Nodup ∧
    (∀ path pkg, r.package? path = some pkg → (pkg.symbols.map (·.1)).Nodup) ∧
    (∀ path name s, r.find? path name = some s →
      ∃ e ∈ (bare bodies).log qs, e.path = path ∧ e.name = name ∧ r.natives.lookup? s = some e) ∧
    (∀ e ∈ (bare bodies).log qs, ∃ s, r.find? e.path e.name = some s ∧ r.natives.lookup? s = some e) ∧
    (∀ f ∈ r.natives.funcs, f.func.sig.variadic = false) ∧
    (∀ f ∈ r.natives.funcvs, f.func.sig.variadic = true) ∧
    (∀ path name s, r.find? path name = some s → r'.find? path name = some s) ∧
    (∀ s e, r.natives.lookup? s = some e → r'.natives.lookup? s = some e) ∧
    (∀ (f : File) (folds : Bool) (p : Program) (limits : Limits), f.compile r folds = .ok p →
      p.Small → (Machine.link p limits r'.natives).map (fun m => (m.run, m.invokeTop)) =
        (Machine.link p limits (r.natives.withBodies r'.natives.bodies)).map
          fun m => (m.run, m.invokeTop)) ∧
    ∀ q e, ((perform q).exec r).1 = .error e → ((perform q).exec r).2 = r := by
  intro r r'
  have hgrows : r.Grows r' := r.grows_after qs'
  have hrecords : r.Records ((bare bodies).log qs) := (records_bare bodies).after qs
  have hr : r.natives.Addressable := hsize.of_extends hgrows.natives
  refine ⟨hrecords.paths, hrecords.names, fun path name s => hrecords.find? hr,
    fun e => hrecords.exists_find? hr, hrecords.fixed, hrecords.variadic, fun path name s => hgrows.find?,
    fun s e => hgrows.natives.entry, fun f folds p limits hcompile hsmall => ?_,
    fun q e => perform_fails⟩
  obtain ⟨o, ho, -, rfl, hcode⟩ := File.code_of_compile hcompile hsmall
  have hhosted : o.program.Hosted r.natives := ho ▸ hcode.hosted
  have hextends : (r.natives.withBodies r'.natives.bodies).Extends r'.natives :=
    ⟨hgrows.natives.vars, hgrows.natives.funcs, hgrows.natives.funcvs⟩
  exact Machine.link_keeps hextends rfl hhosted

/-- A main body that calls a host function. -/
def File.beeping : File :=
  ⟨[⟨"box", none⟩], [], [.expr (.call (.select (.ident "box") "beep") [] false)]⟩

namespace Beeping

def beep : FuncValue := ⟨⟨[], [], false⟩, .host 0⟩

/-- A package with one function; a batch fails for its second item. -/
def before : List Request := [.package "box", .funcs "box" [("beep", beep)],
  .funcs "box" [("boop", beep), ("beep", beep)]]

/-- More registrations, some of which fail. -/
def later : List Request := [.package "box", .vars "box" [("volume", .basic (.int .int), .cell 0)],
  .funcvs "box" [("hum", beep)], .funcs "box" [("boop", beep)], .host beep.sig fun _ _ => pure []]

def registry : Registry := (Registry.bare #[fun _ _ => pure []]).after before

@[irreducible]
def program : Program := (File.beeping.compile registry true).toOption.get (by decide +kernel)

theorem compiles : File.beeping.compile registry true = .ok program := by
  unfold program
  exact eq_ok_get _

theorem small : program.Small := by
  have hvars : ∀ f ∈ program.funcs, f.vars.size ≤ 1 <<< 32 := by decide +kernel
  exact ⟨by decide +kernel, by decide +kernel, fun id f hf => hvars f (Array.mem_of_getElem? hf)⟩

theorem addressable : (registry.after later).natives.Addressable :=
  ⟨by decide +kernel, by decide +kernel, by decide +kernel⟩

/-- The program links and runs as before, and the failed batch left no name behind. -/
theorem history_keeps_program : (registry.after later).natives.Addressable ∧
    File.beeping.compile registry true = .ok program ∧ program.Small ∧
    (∀ limits, (Machine.link program limits (registry.after later).natives).map
        (fun m => (m.run, m.invokeTop)) =
      (Machine.link program limits
        (registry.natives.withBodies (registry.after later).natives.bodies)).map
          fun m => (m.run, m.invokeTop)) ∧
    registry.find? "box" "boop" = none ∧
    ∃ s, registry.find? "box" "beep" = some s ∧ (registry.after later).find? "box" "beep" = some s := by
  obtain ⟨-, -, -, hentries, -, -, hfinds, -, hlinks, -⟩ :=
    Registry.history_keeps #[fun _ _ => pure []] before later addressable
  obtain ⟨s, hs, -⟩ := hentries ⟨"box", "beep", .func beep⟩ (List.mem_of_getElem? (i := 0) rfl)
  exact ⟨addressable, compiles, small, fun limits => hlinks _ _ _ limits compiles small,
    by decide +kernel, s, hs, hfinds _ _ s hs⟩

end Beeping

end StackScript
