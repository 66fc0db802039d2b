import StackScript.Proofs.Running.Variadic
import StackScript.Proofs.Running.Visiting
import StackScript.Proofs.Running.Addressing
import StackScript.Proofs.Typing.Compiled
import StackScript.Proofs.Typing.Worlds

/-!
# Typed threads

A thread stands in the code of a body if what lies on its stack is what the code expects there: below,
what belongs to others; the arguments of the running function; and operands that are as their slots say
(`Standing`). What instructions read is found then: variables, arguments, enclosing frames, and the
arguments that a variadic call packs.
-/

namespace StackScript

/-! ## Operands -/

/-- The thread with operands on its stack, the first one topmost. -/
def Thread.holding (t : Thread) (ops : List Value) : Thread := t.above ops.reverse

section

variable {t : Thread} {ops : List Value} {v : Value} {vs : List Value}

@[simp] theorem Thread.holding_world : (t.holding ops).world = t.world := rfl

@[simp] theorem Thread.holding_depth : (t.holding ops).depth = t.depth := rfl

theorem Thread.holding_nil : t.holding [] = t := Thread.above_nil

theorem Thread.holding_cons : t.holding (v :: ops) = (t.holding ops).above [v] := by
  rw [holding, holding, above_above, List.reverse_cons]

/-- Values that are put on the stack one after another. -/
theorem Thread.holding_append : t.holding (vs.reverse ++ ops) = (t.holding ops).above vs := by
  rw [holding, holding, above_above, List.reverse_append, List.reverse_reverse]

theorem Thread.toList_stack_above : (t.above vs).stack.toList = t.stack.toList ++ vs := by
  simp [above]

theorem Run.exec_push_holding : (push v).exec (t.holding ops) = (.ok (), t.holding (v :: ops)) := by
  rw [exec_push, Thread.holding_cons]

theorem Run.exec_pop_holding : pop.exec (t.holding (v :: ops)) = (.ok v, t.holding ops) := by
  rw [Thread.holding_cons, exec_pop]

/-- Several values are dropped at once. -/
theorem Run.exec_drop : (drop vs.length).exec (t.above vs) = (.ok (), t) := by
  have hsize : (t.above vs).stack.size = t.stack.size + vs.length := by simp [Thread.above]
  unfold drop
  rw [Task.exec_bind, Task.exec_get]
  dsimp only
  rw [hsize, if_neg (by omega), Nat.add_sub_cancel]
  simp [Thread.above, Stack.cut, setStack, Array.extract_append]

/-- A walk does not depend on the operands. -/
theorem Run.exec_frameOf_holding {ctx f : Nat} {scope : Scope} (hwalk : match scope with
    | .up n => t.world.store.ancestor? ctx n = some f
    | .global => t.world.store.root ctx = f) :
    (frameOf ctx scope).exec (t.holding ops) = (.ok f, t.holding ops) := by
  cases scope with
  | global =>
    subst hwalk
    rfl
  | up k =>
    refine (Task.exec_bind_ok (Task.exec_get _)).trans ?_
    dsimp only at hwalk ⊢
    rw [Thread.holding_world, hwalk]
    rfl

theorem Run.exec_store_holding {p : Place} {s : Store} (hs : t.world.store.store? v p = some s) :
    (store p v).exec (t.holding ops) =
      (.ok (), { t with world := { t.world with store := s } }.holding ops) := by
  rw [store, exec_onWorld, HostTask.store, Task.exec_bind, Task.exec_get]
  dsimp only
  rw [Thread.holding_world, hs]
  rfl

theorem Run.exec_argumentHeight_holding {ctx below : Nat} {frame : Frame}
    (hframe : t.world.store.frames[ctx]? = some frame) (hpos : 0 < below) (hle : below ≤ frame.base) :
    (argumentHeight ctx below).exec (t.holding ops) = (.ok (frame.base - below), t.holding ops) := by
  unfold argumentHeight
  rw [Task.exec_bind, Task.exec_get]
  dsimp only
  rw [Thread.holding_world, hframe]
  refine (Task.exec_bind_ok (a := frame) rfl).trans ?_
  rw [if_neg (by omega), Task.exec_pure]

/-- What lies below the operands is written to. -/
theorem Thread.write?_holding {height : Nat} (hlt : height < t.stack.size) :
    (t.holding ops).stack.write? height v = .ok (t.stack.setIfInBounds height v ++ ops.reverse.toArray) := by
  rw [Stack.write?, if_pos (by simp [holding, above]; omega)]
  simp [holding, above, Array.setIfInBounds_append_left, hlt]

end

/-! ## Threads -/

/-- Values are the arguments that the body takes. -/
def Body.Takes (b : Body) (g : Setting) (cells : Array Ty) (s : Store) (args : List Value) : Prop :=
  ∀ (func : Nat) (sig : Signature), b.func = some func → g.out.program.sig? func = some sig →
    b.numParams = sig.params.length ∧ AreOf g cells s args sig.params

/-- The thread runs code of the body `b` in the frame `ctx`: on its stack are the values `below` the
arguments of the body and these arguments. The operands, which lie above, are as their slots say. -/
structure Standing (g : Setting) (cells : Array Ty) (b : Body) (ctx : Nat) (below args : List Value)
    (τ : List Slot) (t : Thread) (ops : List Value) : Prop where
  typed : t.world.store.Typed g cells
  lineage : t.world.store.Lineage ctx (g.out.chain b.func)
  stack : t.stack.toList = below ++ args
  base : ∀ frame, t.world.store.frames[ctx]? = some frame →
    frame.base = below.length + args.length
  args : b.Takes g cells t.world.store args
  ops : AllHold g cells t.world.store ops τ

/-- The thread is in a later world, at the same depth of calls. -/
structure Thread.Later (g : Setting) (cells : Array Ty) (t : Thread) (cells' : Array Ty) (t' : Thread) :
    Prop where
  world : t.world.Later g cells cells' t'.world
  depth : t'.depth = t.depth

theorem Thread.Later.refl {g : Setting} {cells : Array Ty} {t : Thread}
    (h : t.world.store.Typed g cells) : t.Later g cells cells t := ⟨.refl h, rfl⟩

theorem Thread.Later.numbered {g : Setting} {cells : Array Ty} {t : Thread}
    (h : t.world.store.Typed g cells) : t.Later g cells cells t.numbered := ⟨.of_eq h rfl rfl rfl, rfl⟩

namespace Standing

variable {g : Setting} {cells cells' : Array Ty} {b : Body} {ctx : Nat} {below args : List Value}
  {τ τ' : List Slot} {t t' : Thread} {ops ops' : List Value}

/-- What stays is as before in a later world. -/
theorem later (h : Standing g cells b ctx below args τ t ops) (hlater : t.Later g cells cells' t')
    (hstack : t'.stack = t.stack) : Standing g cells' b ctx below args τ t' ops := by
  obtain ⟨⟨htyped, hcells, hgrows, -⟩, -⟩ := hlater
  refine ⟨htyped, h.lineage.mono hgrows, hstack ▸ h.stack, fun frame hframe => ?_,
    fun func sig hfunc hsig => ?_, h.ops.mono hcells hgrows⟩
  · obtain ⟨old, hold, -⟩ := h.lineage.func_eq
    obtain ⟨frame', hframe', -, -, hbase, -⟩ := hgrows.frames ctx old hold
    cases hframe.symm.trans hframe'
    rw [hbase, h.base old hold]
  · obtain ⟨hnum, hargs⟩ := h.args func sig hfunc hsig
    exact ⟨hnum, hargs.mono hcells hgrows⟩

/-- Other operands. -/
theorem holds (h : Standing g cells b ctx below args τ t ops)
    (hops : AllHold g cells t.world.store ops' τ') : Standing g cells b ctx below args τ' t ops' :=
  ⟨h.typed, h.lineage, h.stack, h.base, h.args, hops⟩

/-- The topmost value, and the thread without it. -/
theorem uncons {x : Slot} (hs : Standing g cells b ctx below args (x :: τ) t ops) : ∃ v rest,
    ops = v :: rest ∧ x.Holds g cells t.world.store v ∧ Standing g cells b ctx below args τ t rest := by
  obtain ⟨v, rest, hv, hrest, rfl⟩ := List.forall₂_cons_right_iff.1 hs.ops
  exact ⟨v, rest, rfl, hv, hs.holds hrest⟩

/-- The values on top that are of the types, and the thread without them. -/
theorem takes {ts : List Ty} (hs : Standing g cells b ctx below args (Slot.values ts ++ τ) t ops) :
    ∃ vs rest, ops = vs.reverse ++ rest ∧ AreOf g cells t.world.store vs ts ∧
      Standing g cells b ctx below args τ t rest := by
  obtain ⟨vs, rest, hops, hvs, hrest⟩ := hs.ops.take
  exact ⟨vs, rest, hops, hvs, hs.holds hrest⟩

/-! ## Places -/

/-- The walk that an instruction takes ends in the frame that has the variable. -/
theorem exec_frameOf (h : Standing g cells b ctx below args τ t ops) {scope : Scope} {index : Nat}
    {d : Var} (hslot : VarSlot g b scope index d) : ∃ f frame id,
      (∀ ops, (Run.frameOf ctx scope).exec (t.holding ops) = (.ok f, t.holding ops)) ∧
      t.world.store.frames[f]? = some frame ∧
      (g.out.program.frameVars frame.func)[index]? = some id ∧ g.out.program.vars[id]? = some d := by
  obtain ⟨S, name, id, hS, rfl, hvar⟩ := hslot
  have hlineage : t.world.store.Lineage ctx S.chain := by
    rw [Site.chain, hS]
    exact h.lineage
  have hd : S.out.program.vars[id]? = some d := hvar.var
  obtain ⟨f, n, frame, hwalk, -, hframe, -, hid, -⟩ := hvar.finds hlineage (by
    rw [Site.program, hS]
    exact h.typed.sized)
  rw [Site.program, hS] at hid
  rw [hS] at hd
  exact ⟨f, frame, id, fun _ => Run.exec_frameOf_holding hwalk, hframe, hid, hd⟩

/-- The type of a variable in its slot. -/
theorem typeAt?_slot {s : Store} {f index id : Nat} {frame : Frame} {d : Var}
    (hframe : s.frames[f]? = some frame) (hid : (g.out.program.frameVars frame.func)[index]? = some id)
    (hd : g.out.program.vars[id]? = some d) : g.typeAt? cells s (.slot f index) = some d.ty := by
  rw [Setting.typeAt?, hframe, Option.bind_some, hid, Option.bind_some, hd]
  rfl

/-- What is in a place is of the type that may be there. -/
theorem exec_load (h : Standing g cells b ctx below args τ t ops) {p : Place} {ty : Ty}
    (hp : g.typeAt? cells t.world.store p = some ty) :
    ∃ v, v.Has g cells t.world.store ty ∧ ∀ ops, (Run.load p).exec (t.holding ops) = (.ok v, t.holding ops) := by
  obtain ⟨v, hv, hhas⟩ := h.typed.places p ty hp
  refine ⟨v, hhas, fun ops => ?_⟩
  rw [Run.load, Run.exec_onWorld, HostTask.load, Task.exec_bind, Task.exec_get]
  dsimp only
  rw [Thread.holding_world, hv]
  rfl

/-- A value is written to a place where it may be. -/
theorem exec_store (h : Standing g cells b ctx below args τ t ops) {p : Place} {ty : Ty} {v : Value}
    (hp : g.typeAt? cells t.world.store p = some ty) (hv : v.Has g cells t.world.store ty) :
    ∃ t', t.Later g cells cells t' ∧ t'.stack = t.stack ∧
      ∀ ops, (Run.store p v).exec (t.holding ops) = (.ok (), t'.holding ops) := by
  obtain ⟨s', hs, htyped⟩ := h.typed.store hp hv
  refine ⟨{ t with world := { t.world with store := s' } },
    ⟨⟨htyped, .refl _, .store hs, HostTask.hostDepth_of_store? hs⟩, rfl⟩, rfl,
    fun _ => Run.exec_store_holding hs⟩

/-- Something new is numbered. -/
theorem exec_allocate (h : Standing g cells b ctx below args τ t ops) {α : Type}
    (make : Store → α × Store) (hmake : ∀ s : Store, (make s).2 = { s with fresh := s.fresh + 1 }) :
    t.Later g cells cells t.numbered ∧ ∀ ops,
      (Run.onWorld (HostTask.allocate make)).exec (t.holding ops) =
        (.ok (make t.world.store).1, t.numbered.holding ops) := by
  refine ⟨.numbered h.typed, fun ops => ?_⟩
  have hrun : (Run.onWorld (HostTask.allocate make)).exec (t.holding ops) =
      (.ok (make t.world.store).1,
        { t.holding ops with world := { t.world with store := (make t.world.store).2 } }) := rfl
  rw [hrun, hmake]
  rfl

/-- The type that a pointer to a variable points to. -/
theorem exec_varType {m : Machine} (hm : m.program = g.out.program) {f index id : Nat} {frame : Frame}
    {d : Var} (hframe : t.world.store.frames[f]? = some frame)
    (hid : (g.out.program.frameVars frame.func)[index]? = some id)
    (hd : g.out.program.vars[id]? = some d) (ops : List Value) :
    (m.varType f index).exec (t.holding ops) = (.ok d.ty, t.holding ops) := by
  have hvar : g.out.program.var id = .ok d := by rw [Program.var, hd]
  unfold Machine.varType
  refine (Task.exec_bind_ok (Task.exec_get _)).trans ((Task.exec_bind_ok (a := frame) (by
    rw [Thread.holding_world, hframe]
    rfl)).trans ?_)
  rw [hm]
  extract_lets find
  have found {vars : Array Nat} (hvars : vars[index]? = some id) :
      (find vars).exec (t.holding ops) = (.ok d.ty, t.holding ops) := by
    dsimp only [find]
    rw [hvars]
    dsimp only
    rw [hvar]
    rfl
  cases hfunc : frame.func with
  | none =>
    rw [hfunc] at hid
    exact found hid
  | some func =>
    rw [hfunc] at hid
    cases hinfo : g.out.program.funcs[func]? with
    | none =>
      rw [Program.frameVars, hinfo] at hid
      cases hid
    | some info =>
      rw [Program.frameVars, hinfo] at hid
      have hinfo : g.out.program.func func = .ok info := Program.func_eq_ok.2 hinfo
      dsimp only
      rw [hinfo]
      exact found hid

/-! ## Arguments -/

/-- A parameter of the body, at its place among the arguments. -/
theorem exec_argumentHeight (h : Standing g cells b ctx below args τ t ops) {distance : Nat} {ty : Ty}
    (hslot : ParamSlot g b distance ty) : ∃ func sig index, b.func = some func ∧
      g.out.program.sig? func = some sig ∧ sig.params[index]? = some ty ∧
      ∀ ops, (Run.argumentHeight ctx distance).exec (t.holding ops) =
        (.ok (below.length + index), t.holding ops) := by
  obtain @⟨func, index, sig, _, hfunc, hsig, hty⟩ := hslot
  obtain ⟨hnum, hargs⟩ := h.args func sig hfunc hsig
  obtain ⟨frame, hframe, -⟩ := h.lineage.func_eq
  have hlt := (List.getElem?_eq_some_iff.1 hty).1
  have hlength := List.Forall₂.length_eq hargs
  refine ⟨func, sig, index, hfunc, hsig, hty, fun ops => ?_⟩
  have hbase := h.base frame hframe
  rw [Run.exec_argumentHeight_holding hframe (by omega) (by omega), hbase,
    show below.length + args.length - (b.numParams - index) = below.length + index by omega]

/-- The argument at a place. -/
theorem exists_arg (h : Standing g cells b ctx below args τ t ops) {func index : Nat} {sig : Signature}
    {ty : Ty} (hfunc : b.func = some func) (hsig : g.out.program.sig? func = some sig)
    (hty : sig.params[index]? = some ty) :
    ∃ v, args[index]? = some v ∧ v.Has g cells t.world.store ty := by
  obtain ⟨-, hargs⟩ := h.args func sig hfunc hsig
  exact exists_getElem?_of_forall₂ (List.Forall₂.flip hargs) hty

end Standing

/-- One argument is replaced by another one of its type. -/
theorem Body.Takes.set {g : Setting} {cells : Array Ty} {b : Body} {s : Store} {args : List Value}
    (h : b.Takes g cells s args) {func index : Nat} {sig : Signature} {ty : Ty} {v : Value}
    (hfunc : b.func = some func) (hsig : g.out.program.sig? func = some sig)
    (hty : sig.params[index]? = some ty) (hv : v.Has g cells s ty) :
    b.Takes g cells s (args.set index v) := by
  intro func' sig' hfunc' hsig'
  cases hfunc.symm.trans hfunc'
  cases hsig.symm.trans hsig'
  obtain ⟨hnum, hargs⟩ := h func sig hfunc hsig
  refine ⟨hnum, List.forall₂_iff_get.2 ⟨by rw [List.length_set]; exact hargs.length_eq, fun i hi hi' => ?_⟩⟩
  rw [List.get_eq_getElem, List.get_eq_getElem, List.getElem_set]
  split
  · rename_i heq
    subst heq
    rwa [Option.some.inj ((List.getElem?_eq_getElem hi').symm.trans hty)]
  · rw [List.length_set] at hi
    exact hargs.get hi hi'

/-! ## Enclosing frames -/

section

variable {g : Setting} {cells : Array Ty} {b : Body} {ctx : Nat} {below args : List Value}
  {τ : List Slot} {t : Thread} {ops : List Value}

/-- A function that a call may enter: it has words, and its signature. -/
structure Setting.Enters (g : Setting) (id : Nat) (f : FuncInfo) (sig : Signature) : Prop where
  info : g.out.program.funcs[id]? = some f
  ended : f.stop.isSome
  sig : g.out.program.sig? id = some sig

/-- The frame that a function is made or called in. -/
theorem Standing.exec_parentOf (h : Standing g cells b ctx below args τ t ops) {file : File}
    (hcode : FileCode g.out file) {id : Nat} {f : FuncInfo} (hf : g.out.program.funcs[id]? = some f)
    (hstop : f.stop.isSome) (hnest : g.out.nest id = [id] ∨ g.out.nest id = id :: g.out.chain b.func) :
    ∃ parent, t.world.store.Lineage parent (g.out.nest id).tail ∧
      ∀ ops, (Machine.parentOf f ctx).exec (t.holding ops) = (.ok parent, t.holding ops) := by
  have hdepth := (hcode.nest hf hstop).2
  unfold Machine.parentOf
  split
  · rename_i hle
    have htail : (g.out.nest id).tail = [] := List.eq_nil_of_length_eq_zero (by
      rw [List.length_tail]
      omega)
    exact ⟨t.world.store.root ctx, htail ▸ h.lineage.root, fun ops => rfl⟩
  · rename_i hlt
    obtain hnest | hnest := hnest
    · rw [hdepth, hnest] at hlt
      exact absurd (Nat.le_refl 1) hlt
    · exact ⟨ctx, by rw [hnest, List.tail_cons]; exact h.lineage, fun ops => rfl⟩

/-- A function that is found in a table can be entered. -/
theorem Entry.enters {file : File} (hcode : FileCode g.out file) {variadic : Bool} {place id : Nat}
    {sig : Signature} (h : Entry g b variadic place id sig) : ∃ f, g.Enters id f sig := by
  obtain ⟨f, hf, -, hstop⟩ := hcode.tables variadic place id h.entry.entry
  exact ⟨f, hf, hstop, h.declares⟩

/-- The closure that an instruction makes is sound. -/
theorem Standing.exec_makeClosure (h : Standing g cells b ctx below args τ t ops) {file : File}
    (hcode : FileCode g.out file) {variadic : Bool} {place id : Nat} {sig : Signature}
    (hentry : Entry g b variadic place id sig) :
    t.Later g cells cells t.numbered ∧ ∃ c : Closure, c.Sound g t.world.store ∧ c.sig = sig ∧
      ∀ (m : Machine) (ops : List Value), m.program = g.out.program →
        (m.makeClosure ctx variadic place).exec (t.holding ops) = (.ok c, t.numbered.holding ops) := by
  obtain ⟨f, hf, hstop, hsig⟩ := hentry.enters hcode
  obtain ⟨parent, hparent, hexec⟩ := h.exec_parentOf hcode hf hstop hentry.nest
  obtain ⟨hlater, hnumber⟩ := h.exec_allocate Store.number fun _ => rfl
  refine ⟨hlater, ⟨t.world.store.fresh, id, parent, sig⟩, ⟨hparent, hsig, f, hf, hstop⟩, rfl,
    fun m ops hm => ?_⟩
  have hfunc : g.out.program.func id = .ok f := Program.func_eq_ok.2 hf
  have hsignature : g.out.program.signature id = .ok sig := by
    rw [Program.sig?, hf, Option.bind_some] at hsig
    simp only [Program.signature, hfunc, bind, Except.bind, hsig]
    rfl
  unfold Machine.makeClosure
  rw [hm, hentry.entry.entry]
  dsimp only
  rw [hfunc, hsignature]
  refine (Task.exec_bind_ok (a := f) rfl).trans ((Task.exec_bind_ok (hexec ops)).trans ?_)
  exact (Task.exec_bind_ok (a := sig) rfl).trans ((Task.exec_bind_ok (hnumber ops)).trans rfl)

end

end StackScript
