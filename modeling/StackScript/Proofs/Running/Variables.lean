import StackScript.Proofs.Hosting.Later
import StackScript.Proofs.Placing.Ranges
import StackScript.Proofs.Running.Addressing
import StackScript.Proofs.Running.Visiting

/-!
# Where variables are

At every moment of a run of a compiled program the code runs in the frame of the innermost active
function, around which lie frames of the functions around that one in the source
(`Machine.linked_of_visits`). So the walk of a variable instruction ends in the activation that
declares the variable and around the running one (`File.variables_found_of_compile`). A function
that is entered gets a frame of its own.
-/

namespace StackScript

/-! ## Owners -/

theorem FuncInfo.Spans.mem_vars {g : FuncInfo} {x y : Mark} (h : g.Spans x y) {id : Nat}
    (hid : id ∈ g.vars) : x.vars ≤ id ∧ id < y.vars := by
  have hmem := Array.mem_toList_iff.2 hid
  rw [h.vars] at hmem
  have hbounds := List.mem_range'_1.1 hmem
  exact ⟨hbounds.1, h.next ▸ hbounds.2⟩

theorem Laid.mem_vars {fs : Array FuncInfo} {ids : List Nat} {x y : Mark} (h : Laid fs ids x y)
    {func id : Nat} {g : FuncInfo} (hfunc : func ∈ ids) (hg : fs[func]? = some g) (hid : id ∈ g.vars) :
    x.vars ≤ id := by
  induction h with
  | nil => cases hfunc
  | cons hg' h hs ih =>
    obtain rfl | hfunc := List.mem_cons.1 hfunc
    · cases hg.symm.trans hg'
      exact (h.mem_vars hid).1
    · exact Nat.le_trans (h.next ▸ Nat.le_add_right ..) (ih hfunc)

/-- A variable belongs to one of the functions. -/
theorem Laid.owner {fs : Array FuncInfo} {ids : List Nat} {x y : Mark} (h : Laid fs ids x y)
    {func func' id : Nat} {g g' : FuncInfo} (hfunc : func ∈ ids) (hfunc' : func' ∈ ids)
    (hg : fs[func]? = some g) (hg' : fs[func']? = some g') (hid : id ∈ g.vars) (hid' : id ∈ g'.vars) :
    func = func' := by
  induction h with
  | nil => cases hfunc
  | cons hfirst h hs ih =>
    obtain rfl | htail := List.mem_cons.1 hfunc
    · cases hg.symm.trans hfirst
      obtain rfl | htail' := List.mem_cons.1 hfunc'
      · rfl
      · have := hs.mem_vars htail' hg' hid'
        have := (h.mem_vars hid).2
        omega
    · obtain rfl | htail' := List.mem_cons.1 hfunc'
      · cases hg'.symm.trans hfirst
        have := hs.mem_vars htail hg hid
        have := (h.mem_vars hid').2
        omega
      · exact ih htail htail'

section

variable {o : Output} {f : File} {labels : Nat}

/-- A function with variables is one with words. -/
theorem Output.Divides.defined_of_mem (h : o.Divides f labels) (hcode : FileCode o f) {func id : Nat}
    (hid : id ∈ o.program.frameVars (some func)) :
    func ∈ f.order labels ∧ ∃ g : FuncInfo, o.program.funcs[func]? = some g ∧ id ∈ g.vars := by
  rw [Program.frameVars] at hid
  cases hg : o.program.funcs[func]? with
  | none =>
    rw [hg] at hid
    exact absurd hid (Array.not_mem_empty id)
  | some g =>
    rw [hg] at hid
    refine ⟨(h.ended func g hg).1 (Option.isSome_iff_ne_none.2 fun hstop => ?_), g, rfl, hid⟩
    rw [Option.map_some, Option.getD_some, hcode.idle func g hg hstop] at hid
    exact Array.not_mem_empty id hid

/-- A variable belongs to the frames of one function, or to those of the main body. -/
theorem Output.Divides.owner (h : o.Divides f labels) (hcode : FileCode o f) {func func' : Option Nat}
    {id : Nat} (hid : id ∈ o.program.frameVars func) (hid' : id ∈ o.program.frameVars func') :
    func = func' := by
  have apart {func : Nat} (hmain : id ∈ o.program.mainVars)
      (hid : id ∈ o.program.frameVars (some func)) : False := by
    obtain ⟨_, _, _, _, _, hvars⟩ := hcode.main
    obtain ⟨hfunc, g, hg, hg'⟩ := h.defined_of_mem hcode hid
    have hle : o.program.mainVars.size ≤ id := h.laid.mem_vars hfunc hg hg'
    have hlt := Array.mem_toList_iff.2 hmain
    rw [hvars, List.mem_range] at hlt
    have hsize := congrArg List.length hvars
    rw [Array.length_toList, List.length_range] at hsize
    omega
  cases func with
  | none =>
    cases func' with
    | none => rfl
    | some _ => exact (apart hid hid').elim
  | some _ =>
    cases func' with
    | none => exact (apart hid' hid).elim
    | some _ =>
      obtain ⟨hfunc, g, hg, hg'⟩ := h.defined_of_mem hcode hid
      obtain ⟨hfunc', k, hk, hk'⟩ := h.defined_of_mem hcode hid'
      rw [h.laid.owner hfunc hfunc' hg hk hg' hk']

end

/-! ## Frames of active functions -/

/-- The frames of the active functions and that of the main body, the innermost first, are there, and
each is later than those behind it. -/
structure Store.Stacked (s : Store) (base : Nat) (active : List Nat) : Prop where
  later : (active ++ [base]).Pairwise (· > ·)
  lt : ∀ g ∈ active ++ [base], g < s.frames.size

theorem Store.Stacked.mono {s s' : Store} {base : Nat} {active : List Nat} (h : s.Stacked base active)
    (hs : s.Grows s') : s'.Stacked base active :=
  ⟨h.later, fun g hg => Nat.lt_of_lt_of_le (h.lt g hg) hs.size_le⟩

/-- A frame that is new is later than those that are there. -/
theorem Store.Stacked.cons {s s' : Store} {base : Nat} {active : List Nat} (h : s.Stacked base active)
    (hs : s.Grows s') (hlt : s.frames.size < s'.frames.size) :
    s'.Stacked base (s.frames.size :: active) where
  later := List.pairwise_cons.2 ⟨h.lt, h.later⟩
  lt g hg := by
    obtain rfl | hg := List.mem_cons.1 hg
    · exact hlt
    · exact (h.mono hs).lt g hg

/-! ## Moments -/

/-- What a machine has at a moment is linked, and code runs in the frame of the innermost active
function, around which lie frames of the functions around it in the source. -/
inductive Moment.Linked (o : Output) (floor : Store) (base : Nat) (active : List Nat) : Moment → Prop
  | code {room ctx stop offset first : Nat} {func : Option Nat} {t : Thread} (ht : t.Linked o floor)
    (hstacked : t.world.store.Stacked base active) (hhead : (active ++ [base]).head? = some ctx)
    (hcovers : o.program.Covers func first stop) (hle : first ≤ offset)
    (hctx : t.world.store.Lineage ctx (o.chain func)) :
    Linked o floor base active (.code room ctx stop offset t)
  | call {room id parent : Nat} {t : Thread} (ht : t.Linked o floor)
    (hstacked : t.world.store.Stacked base active)
    (hparent : t.world.store.Lineage parent (o.nest id).tail) :
    Linked o floor base active (.call room id parent t)
  | host {room : Nat} {w : World} (hw : w.store.Linked o floor) (hstacked : w.store.Stacked base active) :
    Linked o floor base active (.host room w)

/-- Host code that makes no closures of its own. -/
def HostRely.Faithful (o : Output) (floor : Store) (may : HostRely) : Prop :=
  ∀ w w' c args, may w w' c args → w.store.Linked o floor → (w'.store.Linked o floor ∧
    w.store.Grows w'.store) ∧ c.Nested o w'.store ∧ ∀ v ∈ args, v.Linked o w'.store

variable {o : Output} {floor : Store}

theorem Store.Linked.since {s : Store} (h : s.Linked o floor) : s.Linked o s :=
  ⟨h.cells, h.frames, .refl s⟩

theorem Store.Linked.trans {s s' : Store} (hs : floor.Grows s) (h : s'.Linked o s) : s'.Linked o floor :=
  ⟨h.cells, h.frames, hs.trans h.floor⟩

/-- Host functions that only check something are faithful from any later store on. -/
theorem Natives.Faithful.withBodies {n : Natives} {s : Store} (h : n.Faithful o floor)
    (hs : floor.Grows s) {bodies : Array HostBody} (hbodies : ∀ body ∈ bodies, body.Faithful o s) :
    Natives.Faithful o s { n with bodies } where
  bodies := hbodies
  funcs f hf := Value.linked_func_mono (h.funcs f hf) hs
  funcvs f hf := Value.linked_func_mono (h.funcvs f hf) hs
  vars v hv := hs.load (h.vars v hv)

theorem Stop.Finds.not_alarm {e : Stop RuntimeError} (h : e.Finds) : ¬Machine.Alarm e := by
  rintro ⟨trace, rfl⟩
  exact h trivial

/-- What a task that comes back made of a linked thread. -/
theorem Run.Links.of_exec {α : Type} {t : Run α} {s s' : Thread} {a : α} {Q : α → Thread → Prop}
    (h : Run.Links o floor t s Q) (hexec : t.exec s = (.ok a, s')) : s.Extends o floor s' ∧ Q a s' := by
  unfold Run.Links Task.Ensures at h
  rw [hexec] at h
  exact h

/-- A task loses no frames, however it ends. -/
theorem Run.Links.grows {α : Type} {t : Run α} {s : Thread} {Q : α → Thread → Prop}
    (h : Run.Links o floor t s Q) : s.world.store.Grows (t.exec s).2.world.store := by
  unfold Run.Links Task.Ensures at h
  generalize t.exec s = r at h ⊢
  obtain ⟨e | a, s'⟩ := r
  · exact h.1.2
  · exact h.1.grows

namespace Machine

variable {m : Machine} {f : File} {ctx stop offset : Nat} {i : Instr} {t t' : Thread}

/-- An instruction that a run comes to was made for the body that runs, in a linked thread. -/
theorem Fetches.linked {func : Option Nat} {first : Nat} (hi : m.Fetches stop offset t i t')
    (hm : m.Linked o floor) (hcode : FileCode o f) (ht : t.Linked o floor)
    (hcovers : o.program.Covers func first stop) (hle : first ≤ offset) :
    t.Extends o floor t' ∧ ∃ b : Body, b.func = func ∧ i.From o b :=
  ⟨((links_tick ht).of_exec hi.tick).1,
    hcode.from hcovers hle hi.before (by rw [← hm.program]; exact hi.instr)⟩

section

variable {b : Body} {id parent : Nat} {g : FuncValue} {name : String} {args : List Value}
  (hm : m.Linked o floor) (hcode : FileCode o f) (ht : t.Linked o floor)
  (hctx : t.world.store.Lineage ctx (o.chain b.func)) (hfrom : i.From o b)

include hm hcode ht hctx hfrom

/-- A script function is called in a frame that its lineage goes on from. -/
theorem CallsScript.linked (h : m.CallsScript ctx i t id parent t') :
    t.Extends o floor t' ∧ t'.world.store.Lineage parent (o.nest id).tail := by
  let P (id parent : Nat) (s : Thread) : Prop :=
    s.Linked o floor ∧ s.world.store.Lineage parent (o.nest id).tail
  have hcaller : LinksCaller o floor fun id parent => checking (P id parent) () := by
    intro id parent s hs hparent
    unfold Run.Links Task.Ensures
    rw [checking_eq (P := P id parent) ⟨hs, hparent⟩]
    exact ⟨.refl hs, trivial⟩
  have hlinks := links_perform hm hcode hcaller ht hctx rfl hfrom
  have hP : P id parent t' := h.holds
    (Task.Ensures.mono hlinks (fun _ _ _ => trivial) fun _ _ he => he.2.not_alarm)
  exact ⟨(hlinks.of_exec ((h _).trans (checking_eq hP))).1, hP.2⟩

/-- A host function is entered in a linked store, which grew. -/
theorem EntersHost.linked (h : m.EntersHost ctx i t g name args t') (htakes : m.TakesUp g args) :
    (t'.world.publishing t'.depth).store.Linked o t.world.store := by
  refine h.holds htakes (P := fun w => w.store.Linked o t.world.store) fun bodies hbodies => ?_
  have hcaller : LinksCaller o t.world.store
      fun _ _ => checking (fun t' => t'.world.store.Linked o t.world.store) () := by
    intro id parent s hs _
    unfold Run.Links Task.Ensures
    rw [checking_eq (P := fun t' : Thread => t'.world.store.Linked o t.world.store) hs.store]
    exact ⟨.refl hs, trivial⟩
  have hfaithful : ∀ body ∈ bodies, body.Faithful o t.world.store := by
    intro body hbody call args w _ hw _
    rw [hbodies body hbody]
    unfold HostTask.Links Task.Ensures
    rw [checking_eq (P := fun w : World => w.store.Linked o t.world.store) hw]
    exact ⟨⟨hw, .refl _⟩, fun v hv => absurd hv List.not_mem_nil⟩
  have hlinked : (m.withBodies bodies).Linked o t.world.store :=
    ⟨hm.program, hm.scalars, hm.frames, hm.globals, hm.natives.withBodies ht.store.floor hfaithful⟩
  exact Task.Ensures.mono (links_perform hlinked hcode hcaller ⟨ht.store.since, ht.stack⟩ hctx rfl hfrom)
    (fun _ _ _ => trivial) fun _ _ he => he.2.not_alarm

end

/-- All that a run visits is linked. -/
theorem linked_of_visits {w : World} {may : HostRely} (hm : m.Linked o w.store) (hcode : FileCode o f)
    (hmay : may.Faithful o w.store) (hw : w.store.Linked o w.store) {active : List Nat} {x : Moment}
    (h : m.Visits may w active x) : x.Linked o w.store w.store.frames.size active := by
  induction h with
  | start =>
    refine .code ⟨hm.entered hw, fun v hv => absurd hv (Array.not_mem_empty v)⟩
      ⟨List.pairwise_singleton .., fun g hg => ?_⟩ rfl hm.covers_main (Nat.le_refl _) (lineage_entered w)
    rw [List.nil_append, List.mem_singleton] at hg
    rw [hg, entered, Array.size_push]
    exact Nat.lt_succ_self _
  | next _ hi _ hstep ih =>
    cases ih with
    | code ht hstacked hhead hcovers hle hctx =>
      obtain ⟨h₁, b, rfl, hfrom⟩ := hi.linked hm hcode ht hcovers hle
      have h₂ := ((links_perform hm hcode (links_call hm hcode _) h₁.linked (hctx.mono h₁.grows) rfl
        hfrom).of_exec hstep).1
      have hgrows := h₁.grows.trans h₂.grows
      exact .code h₂.linked (hstacked.mono hgrows) hhead hcovers (Nat.le_succ_of_le hle) (hctx.mono hgrows)
  | script _ hi hcalls ih =>
    cases ih with
    | code ht hstacked hhead hcovers hle hctx =>
      obtain ⟨h₁, b, rfl, hfrom⟩ := hi.linked hm hcode ht hcovers hle
      obtain ⟨h₂, hparent⟩ := hcalls.linked hm hcode h₁.linked (hctx.mono h₁.grows) hfrom
      exact .call h₂.linked (hstacked.mono (h₁.grows.trans h₂.grows)) hparent
  | enter _ hf hentry hstop hdescend hframe ih =>
    cases ih with
    | call ht hstacked hparent =>
      rw [hm.program] at hf
      have hg := Program.func_eq_ok.1 hf
      obtain ⟨h₁, hstore⟩ := (links_descend ht _).of_exec hdescend
      obtain ⟨h₂, rfl, hctx, -⟩ := (links_openFrame hm hcode h₁.linked hg (by rw [hstop]; rfl)
        (hstore ▸ hparent)).of_exec hframe
      exact .code h₂.linked ((hstacked.mono h₁.grows).cons h₂.grows hctx.lt) rfl (.func hg hentry hstop)
        (Nat.le_refl _) hctx
  | host _ hi henters htakes ih =>
    cases ih with
    | code ht hstacked hhead hcovers hle hctx =>
      obtain ⟨h₁, b, rfl, hfrom⟩ := hi.linked hm hcode ht hcovers hle
      have h₂ := henters.linked hm hcode h₁.linked (hctx.mono h₁.grows) hfrom htakes
      exact .host (h₂.trans h₁.linked.store.floor) (hstacked.mono (h₁.grows.trans h₂.floor))
  | callback _ hmay' _ _ ih =>
    cases ih with
    | host hw₁ hstacked =>
      obtain ⟨⟨hw₂, hgrows⟩, hc, hargs⟩ := hmay _ _ _ _ hmay' hw₁
      exact .call ⟨hw₂, fun v hv => hargs v (List.mem_toArray.1 hv)⟩ (hstacked.mono hgrows) hc

end Machine

/-! ## Addresses -/

/-- What an address leads to from the frame `ctx`: a variable that the source names in the body that
runs there. The walk ends in the frame some levels out of an activation of the one function that has
the variable, or of the main body, and in it the variable has the slot with the index. -/
inductive Thread.FindsVariable (o : Output) (t : Thread) (ctx : Nat) (scope : Scope) (index : Nat) :
    Prop
  | mk {S : Site} {name : String} {id g n : Nat} {v : Var} {running frame : Frame} (hout : S.out = o)
    (h : VarAt S name id v scope index) (hrunning : t.world.store.frames[ctx]? = some running)
    (hbody : running.func = S.body.func) (hwalk : (Run.frameOf ctx scope).exec t = (.ok g, t))
    (houter : t.world.store.ancestor? ctx n = some g)
    (hframe : t.world.store.frames[g]? = some frame) (hlevel : frame.func = S.chain[n]?)
    (howner : ∀ func, id ∈ o.program.frameVars func ↔ func = frame.func)
    (hslot : (o.program.frameVars frame.func)[index]? = some id) (hlt : index < frame.vars.size) :
    FindsVariable o t ctx scope index

/-- The frame that the closure was made in, from code that runs in the frame `ctx`: that frame for a
function literal of the body that runs there, and the main one for a declared function. -/
inductive Closure.MadeIn (o : Output) (s : Store) (ctx : Nat) (c : Closure) : Prop
  | literal {S : Site} {label : Nat} {stmts : List Stmt} {sig : Signature} {running : Frame}
    (hout : S.out = o) (hrunning : s.frames[ctx]? = some running) (hbody : running.func = S.body.func)
    (h : LiteralAt S label stmts c.func sig) (hparent : c.parent = ctx)
  | decl {S : Site} {name : String} {sig : Signature} (hout : S.out = o)
    (h : FuncAt S name c.func sig) (hparent : c.parent = s.root ctx)

/-- How the machine finds the variables of a program, in all that a run from the world `w` visits. -/
structure Machine.Addresses (m : Machine) (o : Output) (may : HostRely) (w : World) : Prop where
  /-- An instruction with an address finds the variable that was meant. -/
  found : ∀ {active : List Nat} {room ctx stop offset : Nat} {i : Instr} {t t₁ : Thread} {scope : Scope}
    {index : Nat}, m.Visits may w active (.code room ctx stop offset t) →
    m.Fetches stop offset t i t₁ → i.address? = some (scope, index) →
    t₁.FindsVariable o ctx scope index
  /-- A closure belongs to the frame that it is made in. -/
  made : ∀ {active : List Nat} {room ctx stop offset : Nat} {i : Instr} {t t₁ t₂ : Thread}
    {variadic : Bool} {place : Nat} {c : Closure},
    m.Visits may w active (.code room ctx stop offset t) → m.Fetches stop offset t i t₁ →
    i = .closure variadic place ∨ i = .hostClosure variadic place →
    (m.makeClosure ctx variadic place).exec t₁ = (.ok c, t₂) → c.MadeIn o t₁.world.store ctx
  /-- A function that is entered gets a new frame, in the one that it was made in. -/
  entered : ∀ {active : List Nat} {room id parent frame : Nat} {g : FuncInfo} {t t₁ t₂ : Thread},
    m.Visits may w active (.call (room + 1) id parent t) → m.program.func id = .ok g → g.stop.isSome →
    (m.descend g.name).exec t = (.ok (), t₁) → (m.openFrame id parent g).exec t₁ = (.ok frame, t₂) →
    t.world.store.frames[frame]? = none ∧ ∃ fr, t₂.world.store.frames[frame]? = some fr ∧
      fr.func = some id ∧ fr.parent = some parent
  /-- No instruction loses a frame, or makes it another function's, and no two active functions share
  one; the innermost runs in its own. -/
  kept : ∀ {active : List Nat} {room ctx stop offset : Nat} {i : Instr} {t t₁ : Thread},
    m.Visits may w active (.code room ctx stop offset t) → m.Fetches stop offset t i t₁ →
    t.world.store.Grows ((m.perform (m.call room) ctx i).exec t₁).2.world.store
  apart : ∀ {active : List Nat} {x : Moment}, m.Visits may w active x →
    (active ++ [w.store.frames.size]).Pairwise (· > ·)
  running : ∀ {active : List Nat} {room ctx stop offset : Nat} {t : Thread},
    m.Visits may w active (.code room ctx stop offset t) →
    (active ++ [w.store.frames.size]).head? = some ctx
  /-- The run does not end for want of a variable. -/
  ends : m.run.Ensures w (fun _ _ => True) fun e _ => e.Finds

/-- The functions around a body begin with that of the body. -/
theorem FileCode.head_chain {f : File} (h : FileCode o f) {func : Option Nat} {first stop : Nat}
    (hcovers : o.program.Covers func first stop) : (o.chain func).head? = func := by
  cases hcovers with
  | main => rfl
  | func hg _ hstop =>
    rw [Output.chain, (h.nest hg (by rw [hstop]; rfl)).1]
    rfl

namespace Machine

variable {m : Machine} {f : File} {labels ctx : Nat} {s : Thread}

/-- The variable that a name of the body stands for is found. -/
theorem findsVariable {S : Site} {name : String} {id index : Nat} {v : Var} {scope : Scope}
    (hcode : FileCode o f) (hdivides : o.Divides f labels) (hout : S.out = o)
    (h : VarAt S name id v scope index) (hs : s.Linked o floor) {first stop : Nat}
    (hcovers : o.program.Covers S.body.func first stop)
    (hctx : s.world.store.Lineage ctx (o.chain S.body.func)) : s.FindsVariable o ctx scope index := by
  subst hout
  obtain ⟨g, n, frame, hwalk, houter, hframe, hlevel, hslot, hlt⟩ :=
    h.finds hctx fun frame hframe => (hs.store.frames frame hframe).1
  obtain ⟨running, hrunning, hhead⟩ := hctx.func_eq
  have hmem := Array.mem_of_getElem? hslot
  have hexec : (Run.frameOf ctx scope).exec s = (.ok g, s) := by
    cases scope with
    | global =>
      subst hwalk
      rfl
    | up k =>
      refine (Task.exec_bind_ok (Task.exec_get s)).trans ?_
      dsimp only at hwalk ⊢
      rw [hwalk]
      rfl
  exact .mk rfl h hrunning (hhead.trans (hcode.head_chain hcovers)) hexec houter hframe hlevel
    (fun func => ⟨fun hfunc => hdivides.owner hcode hfunc hmem, fun hfunc => hfunc ▸ hmem⟩) hslot hlt

/-- A closure belongs to the frame of the body that its instruction was made for. -/
theorem madeIn {b : Body} {i : Instr} {variadic : Bool} {place : Nat} {t : Thread} {c : Closure}
    (hm : m.Linked o floor) (hcode : FileCode o f) (hs : s.Linked o floor) {first stop : Nat}
    (hcovers : o.program.Covers b.func first stop)
    (hctx : s.world.store.Lineage ctx (o.chain b.func)) (hfrom : i.From o b)
    (hi : i = .closure variadic place ∨ i = .hostClosure variadic place)
    (hmake : (m.makeClosure ctx variadic place).exec s = (.ok c, t)) :
    c.MadeIn o s.world.store ctx := by
  have hentry : i.entry? = some (variadic, place) := by
    obtain rfl | rfl := hi
    · rfl
    · rfl
  obtain ⟨running, hrunning, hhead⟩ := hctx.func_eq
  have hfunc := hhead.trans (hcode.head_chain hcovers)
  have made {id : Nat} (hid : (o.program.table variadic)[place]? = some id)
      (hnest : o.nest id = [id] ∨ o.nest id = id :: o.chain b.func) : c.func = id ∧
        c.parent = if (o.nest id).length ≤ 1 then s.world.store.root ctx else ctx := by
    obtain ⟨-, -, hc, g, hg, hstop, hparent⟩ :=
      (links_makeClosure hm hcode hs hctx hid hnest).of_exec hmake
    rw [(hcode.nest hg hstop).2] at hparent
    exact ⟨hc, hparent⟩
  cases hfrom with
  | var _ _ _ _ hno | native _ _ _ hno | plain _ hno => cases hno.symm.trans hentry
  | func hout _ h hat hi' =>
    cases hi'.symm.trans hentry
    have hnest := h.nest
    rw [hout] at hnest
    obtain ⟨rfl, hparent⟩ := made hat.entry (.inl hnest)
    rw [hnest] at hparent
    exact .decl hout h hparent
  | literal hout hbody h hat hi' =>
    cases hi'.symm.trans hentry
    have hnest := h.nest
    rw [Site.chain, hout, hbody] at hnest
    obtain ⟨rfl, hparent⟩ := made hat.entry (.inr hnest)
    refine .literal hout hrunning (hfunc.trans (congrArg Body.func hbody.symm)) h (hparent.trans ?_)
    split
    · rename_i hle
      rw [hnest, List.length_cons] at hle
      have hmain : o.chain b.func = [] := List.eq_nil_of_length_eq_zero (by omega)
      rw [hmain] at hctx
      exact (Option.some.inj hctx.ancestor_root).symm
    · rfl

/-- A linked machine finds the variables of a program. -/
theorem addresses {w : World} {may : HostRely} (hm : m.Linked o w.store) (hcode : FileCode o f)
    (hdivides : o.Divides f labels) (hmay : may.Faithful o w.store) (hw : w.store.Linked o w.store) :
    m.Addresses o may w where
  found hvisits hi haddress := by
    cases linked_of_visits hm hcode hmay hw hvisits with
    | code ht hstacked hhead hcovers hle hctx =>
      obtain ⟨h₁, b, rfl, hfrom⟩ := hi.linked hm hcode ht hcovers hle
      cases hfrom with
      | var hout hbody h hi' =>
        cases hi'.symm.trans haddress
        subst hbody
        exact findsVariable hcode hdivides hout h h₁.linked hcovers (hctx.mono h₁.grows)
      | func _ _ _ _ _ hno | literal _ _ _ _ _ hno | native _ _ hno | plain hno =>
        cases hno.symm.trans haddress
  made hvisits hi hclosure hmake := by
    cases linked_of_visits hm hcode hmay hw hvisits with
    | code ht hstacked hhead hcovers hle hctx =>
      obtain ⟨h₁, b, rfl, hfrom⟩ := hi.linked hm hcode ht hcovers hle
      exact madeIn hm hcode h₁.linked hcovers (hctx.mono h₁.grows) hfrom hclosure hmake
  entered hvisits hg hstop hdescend hopen := by
    cases linked_of_visits hm hcode hmay hw hvisits with
    | call ht hstacked hparent =>
      rw [hm.program] at hg
      obtain ⟨h₁, hstore⟩ := (links_descend ht _).of_exec hdescend
      obtain ⟨-, rfl, -, hmade⟩ := (links_openFrame hm hcode h₁.linked (Program.func_eq_ok.1 hg) hstop
        (hstore ▸ hparent)).of_exec hopen
      exact ⟨hstore ▸ Array.getElem?_eq_none (Nat.le_refl _), hmade⟩
  kept hvisits hi := by
    cases linked_of_visits hm hcode hmay hw hvisits with
    | code ht hstacked hhead hcovers hle hctx =>
      obtain ⟨h₁, b, rfl, hfrom⟩ := hi.linked hm hcode ht hcovers hle
      exact h₁.grows.trans (links_perform hm hcode (links_call hm hcode _) h₁.linked
        (hctx.mono h₁.grows) rfl hfrom).grows
  apart hvisits := by
    cases linked_of_visits hm hcode hmay hw hvisits with
    | code _ hstacked | call _ hstacked | host _ hstacked => exact hstacked.later
  running hvisits := by
    cases linked_of_visits hm hcode hmay hw hvisits with
    | code _ _ hhead => exact hhead
  ends := Task.Ensures.mono (links_run hm hcode hw) (fun _ _ _ => trivial) fun _ _ h => h.2

end Machine

/-- In a run of a compiled program every instruction with an address finds the variable that the source
names there. The closures and the frames that the walk goes along are those of the activations in which
the running one was made. This takes it that host code makes no closures of its own, and that it keeps
pointers to what is there. -/
theorem File.variables_found_of_compile {r : Registry} {folds : Bool} {f : File} {p : Program}
    (h : f.compile r folds = .ok p) (hsmall : p.Small) : ∃ o : Output, o.registry = r ∧
      o.folds = folds ∧ o.program = p ∧ FileCode o f.labelled.1 ∧
      ∀ (limits : Limits) (natives : Natives) (m : Machine) (may : HostRely) (w : World),
        Machine.link p limits natives = .ok m → natives.Faithful o w.store →
        may.Faithful o w.store → w.store.Linked o w.store → m.Addresses o may w := by
  obtain ⟨o, hr, hfolds, rfl, hcode, -, hdivides, -⟩ := File.output_of_compile h hsmall
  refine ⟨o, hr, hfolds, rfl, hcode, fun limits natives m may w hlink hnatives hmay hw => ?_⟩
  exact Machine.addresses ((Machine.link_eq_ok.1 hlink).1.linked (File.allScalar_of_compile h) hnatives)
    hcode hdivides hmay hw

/-- `x := 1; box.twice(func() { x++ })`. -/
def File.counting : File :=
  ⟨[⟨"box", none⟩], [], [.assign .define [.ident "x"] [.lit ⟨.int, "1"⟩],
    .expr (.call (.select (.ident "box") "twice") [.funcLit 0 ⟨[], false, []⟩ [.increment (.ident "x")]]
      false)]⟩

namespace Counting

/-- Calls a function value two times. -/
def twice : HostBody := fun call args =>
  match args with
  | [.func f] => do
    let _ ← call f []
    call f []
  | _ => pure []

def registry : Registry := (Registry.bare #[twice]).after
  [.package "box", .funcs "box" [("twice", ⟨⟨[.func ⟨[], [], false⟩], [], false⟩, .host 0⟩)]]

@[irreducible]
def program : Program := (File.counting.compile registry true).toOption.get (by decide +kernel)

@[irreducible]
def machine : Machine := (Machine.link program {} registry.natives).toOption.get (by decide +kernel)

/-- Host code calls the function literal back, for which the frame of a main body is needed. -/
def rely : HostRely := fun w w' c args =>
  w' = w ∧ args = [] ∧ c.func = 0 ∧ w.store.Lineage c.parent []

theorem compiles : File.counting.compile registry true = .ok program := by
  unfold program
  exact eq_ok_get _

theorem small : program.Small := by
  have hvars : ∀ f ∈ program.funcs, f.vars.size ≤ 1 <<< 32 := by decide +kernel
  exact ⟨by decide +kernel, by decide +kernel, fun id f hf => hvars f (Array.mem_of_getElem? hf)⟩

theorem links : Machine.link program {} registry.natives = .ok machine := by
  unfold machine
  exact eq_ok_get _

theorem faithful_twice (o : Output) (floor : Store) : HostBody.Faithful o floor twice := by
  intro call args w hcall hw hargs
  unfold twice
  split
  · rename_i f
    have hf : f.Linked o w.store := hargs _ List.mem_cons_self
    refine Task.Ensures.bind (hcall f [] w hw hf fun v hv => absurd hv List.not_mem_nil) ?_
    intro vs w₁ h₁
    exact Task.Ensures.mono (hcall f [] w₁ h₁.1.1 (Value.linked_func_mono hf h₁.1.2)
      fun v hv => absurd hv List.not_mem_nil) (fun _ _ h => ⟨⟨h.1.1, h₁.1.2.trans h.1.2⟩, h.2⟩)
      fun _ _ h => ⟨⟨h.1.1, h₁.1.2.trans h.1.2⟩, h.2⟩
  · exact ⟨⟨hw, .refl _⟩, fun v hv => absurd hv List.not_mem_nil⟩

theorem faithful_natives (o : Output) (floor : Store) : registry.natives.Faithful o floor := by
  have hfuncs : registry.natives.funcs =
      #[⟨"box", "twice", ⟨⟨[.func ⟨[], [], false⟩], [], false⟩, .host 0⟩⟩] := rfl
  have hvars : registry.natives.vars = #[] := by rfl
  have hfuncvs : registry.natives.funcvs = #[] := by rfl
  have hbodies : registry.natives.bodies = #[twice] := rfl
  refine ⟨fun body hbody => ?_, fun f hf => ?_, fun f hf => ?_, fun v hv => ?_⟩
  · rw [hbodies, List.mem_toArray, List.mem_singleton] at hbody
    exact hbody ▸ faithful_twice o floor
  · rw [hfuncs, List.mem_toArray, List.mem_singleton] at hf
    subst hf
    trivial
  · exact absurd (hfuncvs ▸ hf) (Array.not_mem_empty f)
  · exact absurd (hvars ▸ hv) (Array.not_mem_empty v)

theorem faithful_rely {o : Output} {f : File} (hcode : FileCode o f) (ho : o.program = program)
    (floor : Store) : rely.Faithful o floor := by
  rintro w _ c _ ⟨rfl, rfl, hfunc, hparent⟩ hw
  have houter : program.funcs[0]?.any fun g => g.depth = 1 ∧ g.stop.isSome := by decide +kernel
  rw [← ho] at houter
  obtain ⟨g, hg, hprops⟩ := (Option.any_eq_true _ _).1 houter
  obtain ⟨hdepth, hstop⟩ := of_decide_eq_true hprops
  have htail : (o.nest 0).tail = [] := List.eq_nil_of_length_eq_zero (by
    rw [List.length_tail, ← (hcode.nest hg hstop).2, hdepth])
  refine ⟨⟨hw, .refl _⟩, ?_, fun v hv => absurd hv List.not_mem_nil⟩
  rw [Closure.Nested, hfunc, htail]
  exact hparent

/-- The function literal finds `x` in both calls: it is 3 at the end. -/
theorem variables_found : File.counting.compile registry true = .ok program ∧ program.Small ∧
    Machine.link program {} registry.natives = .ok machine ∧
    ((machine.run.exec default).2.store.load? (.slot 0 0)).any (·.equal (.int 3)) = true ∧
    ∃ o : Output, o.program = program ∧ registry.natives.Faithful o default ∧
      rely.Faithful o default ∧ Store.Linked default o default ∧ machine.Addresses o rely default := by
  obtain ⟨o, -, -, ho, hcode, haddresses⟩ := File.variables_found_of_compile compiles small
  have hempty : Store.Linked default o default := by
    exact ⟨fun v hv => absurd hv (Array.not_mem_empty v), fun v hv => absurd hv (Array.not_mem_empty v), .refl _⟩
  have hrely := faithful_rely hcode ho default
  exact ⟨compiles, small, links, by decide +kernel, o, ho, faithful_natives o _, hrely, hempty,
    haddresses _ _ _ _ _ links (faithful_natives o _) hrely hempty⟩

end Counting

end StackScript
