import StackScript.Proofs.Running.Frames
import StackScript.Proofs.Running.Variables
import StackScript.Proofs.Typing.Worlds

/-!
# Variables that the host finds

The host finds under a name the variable that a definition directly in the main body declares, and no
other one (`Program.Hosts`). Its slot in the frame of the main body is one place, which the host reads
by name, the host reads and writes through the variable, and functions of the run read by an
instruction (`Machine.Reads`). As no frame is ever lost, that is so after whatever the host has done with
the frame of a run (`File.globals_of_compile`).
-/

namespace StackScript

/-! ## Frames around a frame -/

namespace Store

variable {s s' : Store} {f frame ctx : Nat}

/-- The outermost frame stays the outermost one. -/
theorem Grows.root (h : s.Grows s') (hf : f < s.frames.size) : s'.root f = s.root f := by
  induction f using Nat.strongRecOn with
  | ind f ih =>
    obtain ⟨g', hg', -, hparent, -⟩ := h.frames f _ (Array.getElem?_eq_getElem hf)
    rw [Store.root, Store.root, hg', Array.getElem?_eq_getElem hf, Option.bind_some, Option.bind_some,
      hparent]
    split
    · split
      · exact ih _ ‹_› (Nat.lt_trans ‹_› hf)
      · rfl
    · rfl

theorem root_root (s : Store) (f : Nat) : s.root (s.root f) = s.root f := by
  induction f using Nat.strongRecOn with
  | ind f ih =>
    cases hparent : s.frames[f]?.bind (·.parent) with
    | none =>
      have hroot : s.root f = f := by rw [Store.root, hparent]
      rw [hroot, hroot]
    | some p =>
      by_cases hlt : p < f
      · have hroot : s.root f = s.root p := by
          rw [Store.root, hparent]
          exact if_pos hlt
        rw [hroot, ih p hlt]
      · have hroot : s.root f = f := by
          rw [Store.root, hparent]
          exact if_neg hlt
        rw [hroot, hroot]

/-- The frame is that of a main body, or of a function made in it, or in one of those, and so on. -/
structure Under (s : Store) (frame ctx : Nat) : Prop where
  lt : ctx < s.frames.size
  root : s.root ctx = frame

namespace Under

theorem mono (h : s.Under frame ctx) (hs : s.Grows s') : s'.Under frame ctx :=
  ⟨Nat.lt_of_lt_of_le h.lt hs.size_le, (hs.root h.lt).trans h.root⟩

theorem base (h : s.Under frame ctx) : s.Under frame frame :=
  ⟨h.root ▸ Nat.lt_of_le_of_lt (Sound.root_le s ctx) h.lt, by rw [← h.root, root_root]⟩

/-- A new frame in one of them. -/
theorem push (h : s.Under frame ctx) {new : Frame} (hparent : new.parent = some ctx) :
    Under { s with frames := s.frames.push new } frame s.frames.size := by
  refine ⟨by rw [Array.size_push]; exact Nat.lt_succ_self _, ?_⟩
  rw [Store.root, Array.getElem?_push_size, Option.bind_some, hparent]
  dsimp only
  rw [if_pos h.lt]
  exact (h.mono (.push s new)).root

end Under

end Store

/-! ## Reading and writing from the host -/

namespace Machine

variable {m : Machine} {w : World} {frame i : Nat} {v : Var} {x y : Value} {name : String}

/-- What a host can do with the frame of a run. -/
inductive HostAct
  | get (v : Var)
  | named (name : String)
  | set (v : Var) (x : Value)
  | call (f : FuncValue) (args : List Value)
  | callClosure (c : Closure) (args : List Value)

/-- Does it, whatever the result. -/
def act (m : Machine) (frame : Nat) : HostAct → HostTask Unit
  | .get v => discard (getVar frame v)
  | .named name => discard (m.globalValue frame name)
  | .set v x => setVar frame v x
  | .call f args => discard (m.invokeTop f args)
  | .callClosure c args => discard (m.callFresh m.callTop c args)

/-- The world behind several such acts, any of which may fail. -/
def after (m : Machine) (frame : Nat) (w : World) (acts : List HostAct) : World :=
  acts.foldl (fun w a => ((m.act frame a).exec w).2) w

theorem frames_globalPlace : (globalPlace frame v).Relates World.Grows := by
  unfold globalPlace
  split
  · split
    · exact .bind .get fun _ => .pure _
    · exact HostTask.frames_fail _
  · exact HostTask.frames_fail _

theorem frames_getVar : (getVar frame v).Relates World.Grows :=
  .bind frames_globalPlace fun _ => HostTask.frames_load _

/-- No act of the host loses a frame. -/
theorem frames_act (hbodies : ∀ body ∈ m.natives.bodies, body.KeepsFrames) (a : HostAct) :
    (m.act frame a).Relates World.Grows := by
  cases a with
  | get v => exact .discard frames_getVar
  | named name =>
    refine .discard (.bind (.ofChecked _) fun v? => ?_)
    split
    · exact frames_getVar
    · exact HostTask.frames_fail _
  | set v x => exact .bind frames_globalPlace fun _ => HostTask.frames_store _ _
  | call f args => exact .discard (frames_invokeTop hbodies f args)
  | callClosure c args => exact .discard (frames_callFresh (frames_call hbodies _) c args)

theorem frames_after (hbodies : ∀ body ∈ m.natives.bodies, body.KeepsFrames) (w : World)
    (acts : List HostAct) : w.Grows (m.after frame w acts) := by
  induction acts generalizing w with
  | nil => exact .refl _
  | cons a acts ih => exact ((frames_act hbodies a).related w).trans (ih _)

/-! ### One place -/

/-- Whatever reads the variable in the slot `i` of the frame of the main body finds the value `x`: the
host by its name or through the variable, and every function made in the run by an instruction. -/
structure Reads (m : Machine) (frame : Nat) (name : String) (v : Var) (i : Nat) (w : World)
    (x : Value) : Prop where
  slot : w.store.load? (.slot frame i) = some x
  get : (getVar frame v).exec w = (.ok x, w)
  named : (m.globalValue frame name).exec w = (.ok x, w)
  script : ∀ (call : Caller) (ctx : Nat) (t : Thread), t.world = w → w.store.Under frame ctx →
    (m.perform call ctx (.loadVar .global i)).exec t = (.ok (), { t with stack := t.stack.push x })

theorem exec_globalPlace (haddr : v.addr = some ⟨0, i⟩) (hroot : w.store.root frame = frame) :
    (globalPlace frame v).exec w = (.ok (.slot frame i), w) := by
  unfold globalPlace
  rw [haddr]
  dsimp only
  rw [if_pos rfl, Task.exec_bind_ok (Task.exec_get w), hroot, Task.exec_pure]

theorem exec_load {p : Place} (hx : w.store.load? p = some x) :
    (HostTask.load p).exec w = (.ok x, w) := by
  unfold HostTask.load
  rw [Task.exec_bind_ok (Task.exec_get w), hx]
  rfl

/-- A value in the slot of a variable is what all find. -/
theorem reads_of_load (hname : m.program.global? name = .ok (some v)) (haddr : v.addr = some ⟨0, i⟩)
    (hroot : w.store.root frame = frame) (hx : w.store.load? (.slot frame i) = some x) :
    m.Reads frame name v i w x := by
  have hget : (getVar frame v).exec w = (.ok x, w) :=
    (Task.exec_bind_ok (exec_globalPlace haddr hroot)).trans (exec_load hx)
  refine ⟨hx, hget, ?_, fun call ctx t ht hctx => ?_⟩
  · unfold globalValue
    rw [hname]
    exact (Task.exec_bind_ok (a := some v) rfl).trans hget
  · subst ht
    have hframe : (Run.frameOf ctx .global).exec t = (.ok frame, t) := by
      rw [← hctx.root]
      rfl
    have hload : (Run.load (.slot frame i)).exec t = (.ok x, t) := by
      rw [Run.load, Run.exec_onWorld, exec_load hx]
    exact (Task.exec_bind_ok hframe).trans (Task.exec_bind_ok hload)

/-- A value that the host sets changes the one slot. -/
theorem exec_setVar (haddr : v.addr = some ⟨0, i⟩) (hroot : w.store.root frame = frame)
    (hx : w.store.load? (.slot frame i) = some x) (y : Value) : ∃ s, w.store.store? y (.slot frame i) =
      some s ∧ (setVar frame v y).exec w = (.ok (), { w with store := s }) := by
  obtain ⟨s, hs⟩ := Store.exists_store? hx y
  refine ⟨s, hs, (Task.exec_bind_ok (exec_globalPlace haddr hroot)).trans ?_⟩
  unfold HostTask.store
  rw [Task.exec_bind_ok (Task.exec_get w), hs]
  rfl

/-! ### Functions of a run -/

/-- A closure that code of a run makes belongs to the run. -/
theorem under_makeClosure {ctx index : Nat} {variadic : Bool} {t t' : Thread} {c : Closure}
    (h : t.world.store.Under frame ctx) (hmake : (m.makeClosure ctx variadic index).exec t = (.ok c, t')) :
    t'.world.store.Under frame c.parent := by
  have hgrows : t.world.store.Grows t'.world.store := by
    have hframes : (m.makeClosure ctx variadic index).Relates Thread.Grows :=
      frames_makeClosure variadic index
    have hrelated := hframes.related t
    rwa [hmake] at hrelated
  unfold makeClosure at hmake
  split at hmake
  · cases hmake
  · obtain ⟨g, t₁, hg, hmake⟩ := Task.exec_bind_eq_ok.1 hmake
    obtain ⟨parent, t₂, hparent, hmake⟩ := Task.exec_bind_eq_ok.1 hmake
    obtain ⟨sig, t₃, -, hmake⟩ := Task.exec_bind_eq_ok.1 hmake
    obtain ⟨number, t₄, -, hmake⟩ := Task.exec_bind_eq_ok.1 hmake
    cases hmake
    have ht₁ : t₁ = t := by
      generalize m.program.func _ = r at hg
      cases r <;> cases hg
      rfl
    subst ht₁
    refine Store.Under.mono (s := t₁.world.store) ?_ hgrows
    unfold parentOf at hparent
    split at hparent
    · cases hparent
      rw [h.root]
      exact h.base
    · cases hparent
      exact h

/-- A function that belongs to a run gets a frame that does. -/
theorem under_openFrame {id parent ctx : Nat} {g : FuncInfo} {t t' : Thread}
    (h : t.world.store.Under frame parent) (hopen : (m.openFrame id parent g).exec t = (.ok ctx, t')) :
    t'.world.store.Under frame ctx := by
  unfold openFrame at hopen
  obtain ⟨base, t₁, hbase, hopen⟩ := Task.exec_bind_eq_ok.1 hopen
  cases hbase
  split at hopen
  · cases hopen
  · obtain ⟨vars, t₂, hvars, hopen⟩ := Task.exec_bind_eq_ok.1 hopen
    have ht₂ : t₂ = t := by
      generalize m.frames[id]? = r at hvars
      cases r <;> cases hvars
      rfl
    subst ht₂
    cases hopen
    exact h.push rfl

end Machine

/-! ## Files -/

/-- The host finds the variable `v` under the name: that of place `i` in the main body, which alone has
the name outside of blocks. -/
structure Program.Hosts (p : Program) (name : String) (v : Var) (i : Nat) : Prop where
  found : p.global? name = .ok (some v)
  main : IsMain p.vars p.mainVars i v
  addr : v.addr = some ⟨0, i⟩
  named : v.name = .named name
  outside : v.block = false
  unique : ∀ (j : Nat) (u : Var), IsMain p.vars p.mainVars j u → u.name = .named name →
    u.block = false → j = i ∧ u = v

theorem Var.hostName?_eq_some {v : Var} {name : String} :
    v.hostName? = some name ↔ v.name = .named name ∧ v.block = false := by
  obtain ⟨name' | i, ty, addr, block⟩ := v
  · cases block <;> simp [Var.hostName?]
  · simp [Var.hostName?]

theorem Program.hosts_of_mains {p : Program} {names : List String} {name : String} {v : Var}
    (h : Mains p.vars p.mainVars names) (hv : p.global? name = .ok (some v)) : ∃ i, p.Hosts name v i := by
  obtain ⟨-, hnone⟩ | ⟨i, v', -, hsome, hmain, hname⟩ := Program.global?_of_mains h name
  · cases hv.symm.trans hnone
  · cases hv.symm.trans hsome
    obtain ⟨hnamed, houtside⟩ := Var.hostName?_eq_some.1 hname
    refine ⟨i, hv, hmain, h.addr hmain, hnamed, houtside, fun j u hu hunamed huoutside => ?_⟩
    obtain rfl := h.unique hu hmain (Var.hostName?_eq_some.2 ⟨hunamed, huoutside⟩) hname
    obtain ⟨id, hid, hv⟩ := hmain
    obtain ⟨id', hid', hu⟩ := hu
    cases hid.symm.trans hid'
    exact ⟨rfl, Option.some.inj (hu.symm.trans hv)⟩

/-- The main body has the variables that it defines. -/
theorem File.mains_of_compile {r : Registry} {folds : Bool} {f : File} {p : Program}
    (h : f.compile r folds = .ok p) : Mains p.vars p.mainVars (definedIn f.stmts) := by
  have hspec := f.compile_spec r folds
  rw [h] at hspec
  obtain ⟨L, s, mainEnd, -, -, -, -, hcompiles, hp⟩ := hspec
  have hmains := hcompiles.mains
  have hlabelled : definedIn f.labelled.1.stmts = definedIn f.stmts := definedIn_labelStmts f.stmts 0
  rwa [hlabelled, ← hp.vars, ← hp.mainVars] at hmains

/-- The main variable at a place is the one that instructions mean which have the place as their slot in
the outermost frame. -/
theorem VarAt.main_iff {S : Site} {name : String} {id i j : Nat} {u : Var} {scope : Scope} {f : File}
    {labels : Nat} (h : VarAt S name id u scope j) (hcode : FileCode S.out f)
    (hdivides : S.out.Divides f labels) :
    S.out.program.mainVars[i]? = some id ↔ scope = .global ∧ j = i := by
  have hslot := h.slot
  constructor
  · intro hid
    cases scope with
    | up n =>
      obtain ⟨info, hinfo, hmem⟩ := Option.bind_eq_some_iff.1 hslot
      obtain ⟨func, -, hfunc⟩ := Option.bind_eq_some_iff.1 hinfo
      have hframe : id ∈ S.out.program.frameVars (some func) := by
        have hfunc : S.out.program.funcs[func]? = some info := hfunc
        rw [Program.frameVars, hfunc]
        exact Array.mem_of_getElem? hmem
      have hmain : id ∈ S.out.program.frameVars none := Array.mem_of_getElem? hid
      cases hdivides.owner hcode hframe hmain
    | global =>
      obtain ⟨_, _, _, _, _, hvars⟩ := hcode.main
      have hrange {k : Nat} (hk : S.out.program.mainVars[k]? = some id) : id = k := by
        rw [← Array.getElem?_toList, hvars] at hk
        obtain ⟨hlt, rfl⟩ := List.getElem?_eq_some_iff.1 hk
        exact List.getElem_range hlt
      exact ⟨rfl, (hrange hslot).symm.trans (hrange hid)⟩
  · rintro ⟨rfl, rfl⟩
    exact hslot

namespace Machine

/-- The variable in the slot `i` of the frame of the main body is one place, in which the host sets it:
then all read the new value, and no other place has changed. -/
structure Stores (m : Machine) (frame : Nat) (name : String) (v : Var) (i : Nat) (w : World) : Prop where
  reads : ∃ x, m.Reads frame name v i w x
  sets : ∀ y, ∃ w', (setVar frame v y).exec w = (.ok (), w') ∧ m.Reads frame name v i w' y ∧
    ∀ q, q ≠ .slot frame i → w'.store.load? q = w.store.load? q

/-- Functions made in a run belong to it, and so do the frames that they get. -/
structure Owns (m : Machine) (frame : Nat) : Prop where
  made : ∀ {ctx index : Nat} {variadic : Bool} {t t' : Thread} {c : Closure},
    t.world.store.Under frame ctx → (m.makeClosure ctx variadic index).exec t = (.ok c, t') →
      t'.world.store.Under frame c.parent
  entered : ∀ {id parent ctx : Nat} {g : FuncInfo} {t t' : Thread},
    t.world.store.Under frame parent → (m.openFrame id parent g).exec t = (.ok ctx, t') →
      t'.world.store.Under frame ctx

variable {m : Machine} {w : World} {frame i : Nat} {v : Var} {name : String}

theorem stores_of_under (hname : m.program.global? name = .ok (some v)) (haddr : v.addr = some ⟨0, i⟩)
    (hunder : w.store.Under frame frame) (hslot : (w.store.load? (.slot frame i)).isSome) :
    m.Stores frame name v i w := by
  obtain ⟨x, hx⟩ := Option.isSome_iff_exists.1 hslot
  refine ⟨⟨x, reads_of_load hname haddr hunder.root hx⟩, fun y => ?_⟩
  obtain ⟨s, hs, hset⟩ := exec_setVar haddr hunder.root hx y
  refine ⟨_, hset, reads_of_load hname haddr (hunder.mono (.store hs)).root ?_, fun q hq => ?_⟩
  · exact (Store.load?_store? hs _).trans (if_pos rfl)
  · exact (Store.load?_store? hs q).trans (if_neg hq)

/-- The frame that a run gave stays that of its main body, with a slot for each variable. -/
theorem under_after {p : Program} {limits : Limits} {natives : Natives} {w₁ : World}
    (hm : Builds p limits natives m) (hbodies : ∀ body ∈ natives.bodies, body.KeepsFrames)
    (hrun : m.run.exec w = (.ok frame, w₁)) (acts : List HostAct) (hi : i < p.mainVars.size) :
    (m.after frame w₁ acts).store.Under frame frame ∧
      ((m.after frame w₁ acts).store.load? (.slot frame i)).isSome := by
  rw [← hm.natives] at hbodies
  obtain ⟨rfl, -, hentered⟩ := frames_run hbodies hrun
  have hgrows : (m.entered w).store.Grows (m.after w.store.frames.size w₁ acts).store :=
    hentered.trans (frames_after hbodies w₁ acts)
  have hmain : (m.entered w).store.frames[w.store.frames.size]? = some ⟨none, none, 0, m.globals⟩ :=
    Array.getElem?_push_size
  have hunder : (m.entered w).store.Under w.store.frames.size w.store.frames.size := by
    refine ⟨Extends.lt_of_getElem? hmain, ?_⟩
    rw [Store.root, hmain, Option.bind_some]
  refine ⟨hunder.mono hgrows, hgrows.load ?_⟩
  have hsize : m.globals.size = p.mainVars.size := (List.Forall₂.length_eq hm.globals).symm
  rw [Store.load?, hmain, Option.bind_some, Array.getElem?_eq_getElem (hsize ▸ hi)]
  rfl

end Machine

/-- The host finds a variable under a name if and only if a definition directly in the main body
declares it. The variable is the only one there that has the name outside of blocks, and its address is
its place. After a run, and whatever the host has done with its frame since, the host by the name, the
host by the variable and the functions of the run read one place; setting the variable changes that place
alone, so no variable of a block with the same name. And a name in the source stands for the variable
if and only if its instruction has that address. This takes it that host functions lose no frames. -/
theorem File.globals_of_compile {r : Registry} {folds : Bool} {f : File} {p : Program}
    (h : f.compile r folds = .ok p) :
    (∀ name, (∃ v, p.global? name = .ok (some v)) ↔ name ∈ definedIn f.stmts) ∧
    (∀ name, name ∉ definedIn f.stmts → p.global? name = .ok none) ∧
    (∀ name v, p.global? name = .ok (some v) → ∃ i, p.Hosts name v i ∧
      ∀ (limits : Limits) (natives : Natives) (m : Machine) (w w₁ : World) (frame : Nat)
        (acts : List Machine.HostAct), Machine.link p limits natives = .ok m →
        (∀ body ∈ natives.bodies, body.KeepsFrames) → m.run.exec w = (.ok frame, w₁) →
        m.Owns frame ∧ (m.after frame w₁ acts).store.Under frame frame ∧
          m.Stores frame name v i (m.after frame w₁ acts)) ∧
    (p.Small → ∃ o : Output, o.registry = r ∧ o.folds = folds ∧ o.program = p ∧
      FileCode o f.labelled.1 ∧ ∀ (S : Site) (name : String) (id i j : Nat) (u : Var) (scope : Scope),
        S.out = o → VarAt S name id u scope j →
        (p.mainVars[i]? = some id ↔ scope = .global ∧ j = i)) := by
  have hmains := File.mains_of_compile h
  refine ⟨fun name => ?_, fun name hname => ?_, fun name v hv => ?_, fun hsmall => ?_⟩
  · obtain ⟨hnot, hnone⟩ | ⟨i, v, hmem, hsome, -⟩ := Program.global?_of_mains hmains name
    · refine ⟨fun ⟨v, hv⟩ => ?_, fun hmem => absurd hmem hnot⟩
      cases hv.symm.trans hnone
    · exact ⟨fun _ => hmem, fun _ => ⟨v, hsome⟩⟩
  · obtain ⟨-, hnone⟩ | ⟨i, v, hmem, -⟩ := Program.global?_of_mains hmains name
    · exact hnone
    · exact absurd hmem hname
  · obtain ⟨i, hhosts⟩ := Program.hosts_of_mains hmains hv
    refine ⟨i, hhosts, fun limits natives m w w₁ frame acts hlink hbodies hrun => ?_⟩
    obtain ⟨hm, -⟩ := Machine.link_eq_ok.1 hlink
    obtain ⟨id, hid, -⟩ := hhosts.main
    obtain ⟨hunder, hslot⟩ := Machine.under_after hm hbodies hrun acts (Extends.lt_of_getElem? hid)
    exact ⟨⟨Machine.under_makeClosure, Machine.under_openFrame⟩, hunder,
      Machine.stores_of_under (hm.program ▸ hv) hhosts.addr hunder hslot⟩
  · obtain ⟨o, hr, hfolds, rfl, hcode, -, hdivides, -⟩ := File.output_of_compile h hsmall
    refine ⟨o, hr, hfolds, rfl, hcode, fun S name id i j u scope hout hat => ?_⟩
    subst hout
    exact hat.main_iff hcode hdivides

/-! ### A counter behind a variable of a block -/

/-- `{ x := 7 }; x := 1; bump := func() { x++ }`. -/
def File.shadowing : File := ⟨[], [], [.block [.assign .define [.ident "x"] [.lit ⟨.int, "7"⟩]],
  .assign .define [.ident "x"] [.lit ⟨.int, "1"⟩],
  .assign .define [.ident "bump"] [.funcLit 0 ⟨[], false, []⟩ [.increment (.ident "x")]]]⟩

namespace Shadowing

@[irreducible]
def program : Program := (File.shadowing.compile .empty true).toOption.get (by decide +kernel)

@[irreducible]
def machine : Machine := (Machine.link program {} .empty).toOption.get (by decide +kernel)

/-- The world behind a run of the main body. -/
@[irreducible]
def world : World := (machine.run.exec default).2

/-- The variable that the host finds. -/
@[irreducible]
def x : Var := (program.global? "x").toOption.join.get (by decide +kernel)

/-- The host sets `x` to 40, and calls `bump`. -/
def acts : List Machine.HostAct := [.set x (.int 40), .callClosure ⟨1, 0, 0, ⟨[], [], false⟩⟩ []]

theorem compiles : File.shadowing.compile .empty true = .ok program := by
  unfold program
  exact eq_ok_get _

theorem links : Machine.link program {} .empty = .ok machine := by
  unfold machine
  exact eq_ok_get _

theorem finds : program.global? "x" = .ok (some x) := by
  have hfound (e : Except Fault (Option Var)) (h : e.toOption.join.isSome) :
      e = .ok (some (e.toOption.join.get h)) := by
    obtain e | v | v := e
    · cases h
    · cases h
    · rfl
  unfold x
  exact hfound _ _

theorem runs : machine.run.exec default = (.ok 0, world) := by
  have hframe : (machine.run.exec default).1.toOption = some 0 := by decide +kernel
  unfold world
  generalize machine.run.exec default = r at hframe
  obtain ⟨e | n, w⟩ := r
  · cases hframe
  · rw [Option.some.inj hframe]

theorem keepsFrames : ∀ body ∈ Natives.empty.bodies, body.KeepsFrames :=
  fun body hbody => absurd hbody (Array.not_mem_empty body)

/-- Behind the acts of the host `x` is 41, and the variable of the block is 7. -/
theorem stores : File.shadowing.compile .empty true = .ok program ∧
    Machine.link program {} .empty = .ok machine ∧ machine.run.exec default = (.ok 0, world) ∧
    (((machine.after 0 world acts).store.load? (.slot 0 1)).any (·.equal (.int 41)) = true ∧
    ((machine.after 0 world acts).store.load? (.slot 0 0)).any (·.equal (.int 7)) = true) ∧
    ∃ i, program.Hosts "x" x i ∧ machine.Stores 0 "x" x i (machine.after 0 world acts) := by
  obtain ⟨i, hhosts, hstores⟩ := (File.globals_of_compile compiles).2.2.1 "x" x finds
  exact ⟨compiles, links, runs, by decide +kernel, i, hhosts,
    (hstores _ _ _ _ _ _ acts links keepsFrames runs).2.2⟩

end Shadowing

end StackScript
