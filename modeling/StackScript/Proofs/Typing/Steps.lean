import StackScript.Proofs.Balance.Orderly
import StackScript.Proofs.Typing.Packing
import StackScript.Proofs.Typing.Statements

/-!
# Typed steps

An instruction of typed code takes a thread that stands in it to one that stands behind it, fails in
one of the ways that are left to typed code, or comes to a call of a function, with arguments of its
types (`Instr.Does`). One lemma for each instruction; together they give `Effect.does`.
-/

namespace StackScript

/-- The machine runs the program of the setting, with the host functions that it was compiled for. -/
structure Machine.Shows (m : Machine) (g : Setting) : Prop where
  program : m.program = g.out.program
  funcs : m.natives.funcs = g.out.registry.natives.funcs
  funcvs : m.natives.funcvs = g.out.registry.natives.funcvs
  vars : m.natives.vars = g.out.registry.natives.vars

theorem Machine.Shows.withBodies {m : Machine} {g : Setting} (h : m.Shows g)
    (bodies : Array HostBody) : (m.withBodies bodies).Shows g :=
  ⟨h.program, h.funcs, h.funcvs, h.vars⟩

theorem Machine.Shows.func {m : Machine} {g : Setting} {id : Nat} {f : FuncInfo} (h : m.Shows g)
    (hf : g.out.program.funcs[id]? = some f) : m.program.func id = .ok f := by
  rw [h.program]
  exact Program.func_eq_ok.2 hf

/-- What an instruction does to a thread that stands in the code of a body, whatever its calls do. It
is `next` if none is made: then the operands are as their slots say, and the arguments are as before
unless the instruction writes to one. Otherwise it comes to a call, and
its results will lie above operands that are so. -/
inductive Instr.Does (g : Setting) (cells : Array Ty) (b : Body) (ctx : Nat) (below args : List Value)
    (t : Thread) (ops : List Value) (i : Instr) (τ : List Slot) : Prop
  | next {u : Thread} {a o : List Value}
    (h : ∀ (m : Machine) (call : Caller), m.Shows g →
      (m.perform call ctx i).exec (t.holding ops) = (.ok (), u.holding o))
    (hlater : t.Later g cells cells u) (hs : Standing g cells b ctx below a τ u o)
    (hargs : i.storesArg = false → a = args)
  | fails {e : RuntimeError} {u : Thread}
    (h : ∀ (m : Machine) (call : Caller), m.Shows g →
      (m.perform call ctx i).exec (t.holding ops) = (.error (.error e), u))
    (he : g.Fails e.cause) (hworld : u.world = t.world)
  | script {τ' : List Slot} {t' : Thread} {ops' vs : List Value} {id parent : Nat} {f : FuncInfo}
    {sig : Signature}
    (h : ∀ (m : Machine) (call : Caller), m.Shows g →
      (m.perform call ctx i).exec (t.holding ops) = (call id parent).exec ((t'.holding ops').above vs))
    (hlater : t.Later g cells cells t') (hs : Standing g cells b ctx below args τ' t' ops')
    (henters : g.Enters id f sig) (hparent : t'.world.store.Lineage parent (g.out.nest id).tail)
    (hvs : AreOf g cells t'.world.store vs sig.params) (hτ : τ = Slot.values sig.results ++ τ')
  | host {τ' : List Slot} {t' : Thread} {ops' vs : List Value} {f : FuncValue} (name : String)
    (h : ∀ (m : Machine) (call : Caller), m.Shows g →
      (m.perform call ctx i).exec (t.holding ops) = (m.callHost call f name vs).exec (t'.holding ops'))
    (hlater : t.Later g cells cells t') (hs : Standing g cells b ctx below args τ' t' ops')
    (hf : f.Sound g t'.world.store) (hvs : f.sig.Offered g cells t'.world.store vs)
    (hτ : τ = Slot.values f.sig.results ++ τ')

section

variable {g : Setting} {cells : Array Ty} {b : Body} {ctx : Nat} {below args : List Value}
  {τ : List Slot} {t t' : Thread} {ops : List Value} {D : TypeNames} {i : Instr}

namespace Standing

/-! ## Pushing -/

/-- An instruction that pushes a value. -/
theorem does_push (hs : Standing g cells b ctx below args τ t ops) {v : Value} {x : Slot}
    (hv : x.Holds g cells t.world.store v)
    (h : ∀ (m : Machine) (call : Caller), m.Shows g →
      (m.perform call ctx i).exec (t.holding ops) = (.ok (), t.holding (v :: ops))) :
    i.Does g cells b ctx below args t ops (x :: τ) :=
  .next h (.refl hs.typed) (hs.holds (.cons hv hs.ops)) fun _ => rfl

theorem does_pushed (hs : Standing g cells b ctx below args τ t ops) {v : Value} {x : Slot}
    (hpush : i.pushed? g.out.program.consts = some v) (hv : x.Holds g cells t.world.store v) :
    i.Does g cells b ctx below args t ops (x :: τ) :=
  hs.does_push hv fun m call hm => by
    rw [Machine.exec_pushed (by rwa [hm.program]), Thread.holding_cons]

theorem does_loadVar (hs : Standing g cells b ctx below args τ t ops) {scope : Scope} {index : Nat}
    {d : Var} (h : VarSlot g b scope index d) :
    (Instr.loadVar scope index).Does g cells b ctx below args t ops (.value d.ty :: τ) := by
  obtain ⟨f, frame, id, hwalk, hframe, hid, hd⟩ := hs.exec_frameOf h
  obtain ⟨v, hv, hload⟩ := hs.exec_load (typeAt?_slot hframe hid hd)
  refine hs.does_push (x := .value d.ty) hv fun m call _ => ?_
  unfold Machine.perform
  exact (Task.exec_bind_ok (hwalk ops)).trans ((Task.exec_bind_ok (hload ops)).trans
    Run.exec_push_holding)

theorem does_loadArg (hs : Standing g cells b ctx below args τ t ops) {distance : Nat} {ty : Ty}
    (h : ParamSlot g b distance ty) :
    (Instr.loadArg distance).Does g cells b ctx below args t ops (.value ty :: τ) := by
  obtain ⟨func, sig, index, hfunc, hsig, hty, hheight⟩ := hs.exec_argumentHeight h
  obtain ⟨v, hv, hhas⟩ := hs.exists_arg hfunc hsig hty
  refine hs.does_push (x := .value ty) hhas fun m call _ => ?_
  unfold Machine.perform
  refine (Task.exec_bind_ok (hheight ops)).trans ((Task.exec_bind_ok (Task.exec_get _)).trans ?_)
  have hread : (t.holding ops).stack.read? (below.length + index) = .ok v := by
    have hlt := (List.getElem?_eq_some_iff.1 hv).1
    rw [Stack.read?, ← Array.getElem?_toList, Thread.holding, Thread.toList_stack_above, hs.stack,
      List.append_assoc, List.getElem?_append_right (Nat.le_add_right ..), Nat.add_sub_cancel_left,
      List.getElem?_append_left hlt, hv]
  rw [hread]
  exact (Task.exec_bind_ok (a := v) rfl).trans Run.exec_push_holding

theorem does_loadNativeVar (hs : Standing g cells b ctx below args τ t ops)
    (hn : g.out.registry.natives.Typed g) {addr : Nat} {x : NativeVar}
    (h : g.out.registry.natives.vars[addr]? = some x) :
    (Instr.loadNativeVar addr).Does g cells b ctx below args t ops (.value x.ty :: τ) := by
  have hty := Setting.typeAt?_mono hs.typed.cells hs.typed.since (hn.vars x (Array.mem_of_getElem? h))
  obtain ⟨v, hv, hload⟩ := hs.exec_load hty
  refine hs.does_push (x := .value x.ty) hv fun m call hm => ?_
  unfold Machine.perform
  dsimp only
  rw [hm.vars, h]
  exact (Task.exec_bind_ok (hload ops)).trans Run.exec_push_holding

theorem does_pushNative (hs : Standing g cells b ctx below args τ t ops)
    (hn : g.out.registry.natives.Typed g) {addr : Nat} {x : NativeFunc}
    (h : g.out.registry.natives.funcs[addr]? = some x) :
    (Instr.pushNative addr).Does g cells b ctx below args t ops (.value (.func x.func.sig) :: τ) := by
  have hsound := FuncValue.Sound.mono (hn.funcs x (Array.mem_of_getElem? h)) hs.typed.since
  refine hs.does_push (x := .value (.func x.func.sig)) (Value.has_func hsound) fun m call hm => ?_
  unfold Machine.perform
  dsimp only
  rw [hm.funcs, h]
  exact Run.exec_push_holding

theorem does_pushNativev (hs : Standing g cells b ctx below args τ t ops)
    (hn : g.out.registry.natives.Typed g) {addr : Nat} {x : NativeFunc}
    (h : g.out.registry.natives.funcvs[addr]? = some x) :
    (Instr.pushNativev addr).Does g cells b ctx below args t ops (.value (.func x.func.sig) :: τ) := by
  have hsound := FuncValue.Sound.mono (hn.funcvs x (Array.mem_of_getElem? h)) hs.typed.since
  refine hs.does_push (x := .value (.func x.func.sig)) (Value.has_func hsound) fun m call hm => ?_
  unfold Machine.perform
  dsimp only
  rw [hm.funcvs, h]
  exact Run.exec_push_holding

/-- An instruction that makes something and pushes it. -/
theorem does_make (hs : Standing g cells b ctx below args τ t ops)
    (hlater : t.Later g cells cells t.numbered) {v : Value} {x : Slot}
    (hv : x.Holds g cells t.world.store v)
    (h : ∀ (m : Machine) (call : Caller), m.Shows g →
      (m.perform call ctx i).exec (t.holding ops) = (.ok (), t.numbered.holding (v :: ops))) :
    i.Does g cells b ctx below args t ops (x :: τ) := by
  have hs' := hs.later hlater rfl
  exact .next h hlater (hs'.holds (.cons (hv.mono (.refl _) hlater.world.grows) hs'.ops)) fun _ => rfl

theorem does_addrVar (hs : Standing g cells b ctx below args τ t ops) {scope : Scope} {index : Nat}
    {d : Var} (h : VarSlot g b scope index d) :
    (Instr.addrVar scope index).Does g cells b ctx below args t ops (.value (.ptr d.ty) :: τ) := by
  obtain ⟨f, frame, id, hwalk, hframe, hid, hd⟩ := hs.exec_frameOf h
  obtain ⟨hlater, hmake⟩ := hs.exec_allocate (·.newPtr d.ty (.slot f index)) fun _ => rfl
  refine hs.does_make hlater (v := .ptr t.world.store.fresh d.ty (.slot f index))
    (x := .value (.ptr d.ty)) ⟨typeAt?_slot hframe hid hd, .inr ⟨_, _, rfl⟩⟩ fun m call hm => ?_
  unfold Machine.perform
  refine (Task.exec_bind_ok (hwalk ops)).trans ?_
  refine (Task.exec_bind_ok (exec_varType hm.program hframe hid hd ops)).trans ?_
  exact (Task.exec_bind_ok (hmake ops)).trans Run.exec_push_holding

theorem does_closure (hs : Standing g cells b ctx below args τ t ops) {file : File}
    (hcode : FileCode g.out file) {variadic : Bool} {place id : Nat} {sig : Signature}
    (h : Entry g b variadic place id sig) :
    (Instr.closure variadic place).Does g cells b ctx below args t ops (.closure sig :: τ) := by
  obtain ⟨hlater, c, hc, hsig, hmake⟩ := hs.exec_makeClosure hcode h
  refine hs.does_make hlater (v := .closure c) (x := .closure sig) ⟨c, rfl, hc, hsig⟩ fun m call hm => ?_
  unfold Machine.perform
  exact (Task.exec_bind_ok (hmake m ops hm.program)).trans Run.exec_push_holding

theorem does_hostClosure (hs : Standing g cells b ctx below args τ t ops) {file : File}
    (hcode : FileCode g.out file) {variadic : Bool} {place id : Nat} {sig : Signature}
    (h : Entry g b variadic place id sig) :
    (Instr.hostClosure variadic place).Does g cells b ctx below args t ops
      (.value (.func sig) :: τ) := by
  obtain ⟨hlater, c, hc, rfl, hmake⟩ := hs.exec_makeClosure hcode h
  refine hs.does_make hlater (v := .func (.ofClosure c)) (x := .value (.func c.sig))
    (Value.has_func (f := .ofClosure c) ⟨hc, rfl⟩) fun m call hm => ?_
  unfold Machine.perform
  exact (Task.exec_bind_ok (hmake m ops hm.program)).trans Run.exec_push_holding

/-! ## Popping -/

theorem does_pop {ts : List Ty} (hs : Standing g cells b ctx below args (Slot.values ts ++ τ) t ops) :
    (Instr.pop ts.length).Does g cells b ctx below args t ops τ := by
  obtain ⟨vs, rest, rfl, hvs, hrest⟩ := hs.takes
  refine .next (fun m call _ => ?_) (.refl hs.typed) hrest fun _ => rfl
  unfold Machine.perform
  rw [Thread.holding_append, ← List.Forall₂.length_eq hvs, Run.exec_drop]

theorem does_storeVar {scope : Scope} {index : Nat} {d : Var}
    (hs : Standing g cells b ctx below args (.value d.ty :: τ) t ops) (h : VarSlot g b scope index d) :
    (Instr.storeVar scope index).Does g cells b ctx below args t ops τ := by
  obtain ⟨v, rest, rfl, hv, hrest⟩ := hs.uncons
  obtain ⟨f, frame, id, hwalk, hframe, hid, hd⟩ := hrest.exec_frameOf h
  obtain ⟨t', hlater, hstack, hstore⟩ := hrest.exec_store (typeAt?_slot hframe hid hd) hv
  refine .next (fun m call _ => ?_) hlater (hrest.later hlater hstack) fun _ => rfl
  unfold Machine.perform
  refine (Task.exec_bind_ok Run.exec_pop_holding).trans ((Task.exec_bind_ok (hwalk rest)).trans ?_)
  exact hstore rest

theorem does_storeArg {distance : Nat} {ty : Ty}
    (hs : Standing g cells b ctx below args (.value ty :: τ) t ops) (h : ParamSlot g b distance ty) :
    (Instr.storeArg distance).Does g cells b ctx below args t ops τ := by
  obtain ⟨v, rest, rfl, hv, hrest⟩ := hs.uncons
  obtain ⟨func, sig, index, hfunc, hsig, hty, hheight⟩ := hs.exec_argumentHeight h
  obtain ⟨old, hold, -⟩ := hs.exists_arg hfunc hsig hty
  have hlt := (List.getElem?_eq_some_iff.1 hold).1
  have hsize : t.stack.size = below.length + args.length := by
    rw [← Array.length_toList, hs.stack, List.length_append]
  refine .next (u := { t with stack := t.stack.setIfInBounds (below.length + index) v })
    (a := args.set index v) (fun m call _ => ?_) ⟨.refl hs.typed, rfl⟩
    ⟨hs.typed, hs.lineage, ?_, fun frame hframe => ?_, hs.args.set hfunc hsig hty hv, hrest.ops⟩
    fun h => by cases h
  · unfold Machine.perform
    refine (Task.exec_bind_ok (hheight _)).trans ((Task.exec_bind_ok Run.exec_pop_holding).trans ?_)
    refine (Task.exec_bind_ok (Task.exec_get _)).trans ?_
    rw [Thread.write?_holding (by omega)]
    rfl
  · rw [Array.toList_setIfInBounds, hs.stack, List.set_append_right _ _ (Nat.le_add_right ..),
      Nat.add_sub_cancel_left]
  · rw [List.length_set]
    exact hs.base frame hframe

/-! ## Operators -/

/-- An operator on operands of its kinds gives a value of the kind of its results, or fails as it
may. -/
theorem exec_evaluate {op : Operator} {k : Kind} {ty u : Ty} {x y : Value} (h : op.Applies k ty u)
    (hx : x.kind = ty.kind) (hy : y.kind = u.kind) :
    (∃ v, v.kind = op.resultKind k ∧ ∀ s, (Run.evaluate op k x y).exec s = (.ok v, s)) ∨
      ∃ c, c.Permitted ∧ ∀ s, (Run.evaluate op k x y).exec s = (.error (.error (.of c)), s) := by
  unfold Run.evaluate
  cases heval : op.eval k x y with
  | ok v => exact .inl ⟨v, Operator.kind_of_eval heval, fun s => rfl⟩
  | error e =>
    refine .inr ⟨.evaluation e, ?_, fun s => rfl⟩
    cases h.fails hx hy heval with
    | divisionByZero => exact .divisionByZero
    | negativeShift => exact .negativeShift _

/-- The kinds of operands that an operator goes with. -/
theorem kinds_of_applies {op : Operator} {k : Kind} {ty u : Ty} {x y : Value} {s : Store}
    (h : op.Applies k ty u) (hx : x.Has g cells s ty) (hy : y.Has g cells s u) :
    x.kind = ty.kind ∧ y.kind = u.kind := by
  have hbasic := Operator.isBasic_of_definedOn h.defined
  refine ⟨hx.kind (h.first ▸ hbasic), hy.kind ?_⟩
  have hsecond := h.second
  split at hsecond
  · exact Kind.isBasic_of_isInteger hsecond
  · rwa [hsecond]

theorem does_builtinOp {op : Operator} {k : Kind} {ty u : Ty}
    (hs : Standing g cells b ctx below args (.value u :: .value ty :: τ) t ops)
    (h : op.Applies k ty u) :
    (Instr.builtinOp (some k) (some op)).Does g cells b ctx below args t ops
      (.value (.basic (op.resultKind k)) :: τ) := by
  obtain ⟨y, ops, rfl, hy, hs⟩ := hs.uncons
  obtain ⟨x, ops, rfl, hx, hs⟩ := hs.uncons
  obtain ⟨hkx, hky⟩ := kinds_of_applies h hx hy
  have hpops (m : Machine) (call : Caller) :
      (m.perform call ctx (.builtinOp (some k) (some op))).exec (t.holding (y :: x :: ops)) =
        (do Run.push (← Run.evaluate op k x y) : Run Unit).exec (t.holding ops) := by
    unfold Machine.perform
    exact (Task.exec_bind_ok Run.exec_pop_holding).trans (Task.exec_bind_ok Run.exec_pop_holding)
  obtain ⟨v, hv, hexec⟩ | ⟨c, hc, hexec⟩ := exec_evaluate h hkx hky
  · have hbasic : (op.resultKind k).isBasic = true :=
      Constant.isBasic_resultKind (Operator.isBasic_of_definedOn h.defined)
    refine .next (o := v :: ops) (fun m call _ => (hpops m call).trans ?_) (.refl hs.typed)
      (hs.holds (.cons (Value.has_basic hbasic hv) hs.ops)) fun _ => rfl
    exact (Task.exec_bind_ok (hexec _)).trans Run.exec_push_holding
  · exact .fails (fun m call _ => (hpops m call).trans (Task.exec_bind_error (hexec _))) (.inl hc) rfl

theorem does_convert {k : Kind} {ty : Ty}
    (hs : Standing g cells b ctx below args (.value ty :: τ) t ops) (hk : k.isBasic = true)
    (hty : ty.kind.isBasic = true) (h : ty.kind.Widens k) :
    (Instr.convert (some k)).Does g cells b ctx below args t ops (.value (.basic k) :: τ) := by
  obtain ⟨v, ops, rfl, hv, hs⟩ := hs.uncons
  obtain ⟨w, hw⟩ := Value.convert_of_widens (v := v) (k := k) (by rwa [Value.Has.kind hv hty])
  refine .next (o := w :: ops) (fun m call _ => ?_) (.refl hs.typed)
    (hs.holds (.cons (Value.has_basic hk (Value.kind_of_convert hw)) hs.ops)) fun _ => rfl
  unfold Machine.perform
  refine (Task.exec_bind_ok Run.exec_pop_holding).trans ?_
  rw [Run.convert, hw]
  exact (Task.exec_bind_ok (a := w) rfl).trans Run.exec_push_holding

/-! ## Pointers and fields -/

/-- An instruction that follows a pointer: the pointer is nil, or what is done behind it is done to the
thread without the pointer. -/
theorem follows {ty elem : Ty} {a : Place → Run Unit}
    (hs : Standing g cells b ctx below args (.value ty :: τ) t ops) (hty : ty.underlying = .ptr elem)
    (hi : ∀ (m : Machine) (call : Caller),
      m.perform call ctx i = (do let p ← Run.pointee (← Run.pop); a p)) (τ' : List Slot) :
    i.Does g cells b ctx below args t ops τ' ∨ ∃ p rest,
      g.typeAt? cells t.world.store p = some elem ∧ Standing g cells b ctx below args τ t rest ∧
        ∀ (m : Machine) (call : Caller),
          (m.perform call ctx i).exec (t.holding ops) = (a p).exec (t.holding rest) := by
  obtain ⟨v, rest, rfl, hv, hrest⟩ := hs.uncons
  obtain rfl | ⟨id, p, rfl, hp⟩ := Value.Has.ptr hv hty
  · refine .inl (.fails (e := .of .nilPointer) (fun m call _ => ?_) (.inl Cause.Permitted.nilPointer)
      (u := t.holding rest) rfl)
    rw [hi]
    exact (Task.exec_bind_ok Run.exec_pop_holding).trans rfl
  · refine .inr ⟨p, rest, hp, hrest, fun m call => ?_⟩
    rw [hi]
    exact (Task.exec_bind_ok Run.exec_pop_holding).trans (Task.exec_bind_ok (a := p) rfl)

theorem loads {ty elem : Ty} (hs : Standing g cells b ctx below args (.value ty :: τ) t ops)
    (hty : ty.underlying = .ptr elem)
    (hi : ∀ (m : Machine) (call : Caller), m.perform call ctx i = (do
      let p ← Run.pointee (← Run.pop)
      Run.push (← Run.load p))) :
    i.Does g cells b ctx below args t ops (.value elem :: τ) := by
  obtain hnil | ⟨p, rest, hp, hrest, hexec⟩ := hs.follows hty hi (.value elem :: τ)
  · exact hnil
  · obtain ⟨w, hw, hload⟩ := hrest.exec_load hp
    refine .next (o := w :: rest) (fun m call _ => (hexec m call).trans ?_) (.refl hs.typed)
      (hrest.holds (.cons hw hrest.ops)) fun _ => rfl
    exact (Task.exec_bind_ok (hload rest)).trans Run.exec_push_holding

theorem does_deref {ty elem : Ty} (hs : Standing g cells b ctx below args (.value ty :: τ) t ops)
    (hty : ty.underlying = .ptr elem) :
    Instr.deref.Does g cells b ctx below args t ops (.value elem :: τ) :=
  hs.loads hty fun _ _ => rfl

theorem does_field {ty : Ty} {fs : List Field} {x : Field} {index : Nat}
    (hs : Standing g cells b ctx below args (.value ty :: τ) t ops) (hty : ty.underlying = .struct fs)
    (hx : fs[index]? = some x) :
    (Instr.field index).Does g cells b ctx below args t ops (.value x.ty :: τ) := by
  obtain ⟨v, ops, rfl, hv, hrest⟩ := hs.uncons
  obtain ⟨id, u, vs, rfl, hvs⟩ := Value.Has.struct hv hty
  obtain ⟨w, hget, hw⟩ := exists_getElem?_of_forall₂ hvs hx
  refine .next (o := w :: ops) (fun m call _ => ?_) (.refl hs.typed)
    (hrest.holds (.cons hw hrest.ops)) fun _ => rfl
  unfold Machine.perform
  refine (Task.exec_bind_ok Run.exec_pop_holding).trans ?_
  dsimp only
  rw [hget]
  exact Run.exec_push_holding

/-- What an operator makes of a pointee and a value goes back there, or the operator fails as it may. -/
theorem exec_updatePlace (hs : Standing g cells b ctx below args τ t ops) {op : Operator}
    {elem u : Ty} {p : Place} {y : Value} (hp : g.typeAt? cells t.world.store p = some elem)
    (hop : op.hasUpdateForm = true) (h : op.Applies elem.kind elem u) (hy : y.kind = u.kind) :
    (∃ t', t.Later g cells cells t' ∧ t'.stack = t.stack ∧ ∀ ops,
      (Run.updatePlace op elem.kind p y).exec (t.holding ops) = (.ok (), t'.holding ops)) ∨
    ∃ c, c.Permitted ∧ ∀ ops, (Run.updatePlace op elem.kind p y).exec (t.holding ops) =
      (.error (.error (.of c)), t.holding ops) := by
  have hbasic := Operator.isBasic_of_definedOn h.defined
  obtain ⟨x, hx, hload⟩ := hs.exec_load hp
  obtain ⟨v, hv, hexec⟩ | ⟨c, hc, hexec⟩ := exec_evaluate h (hx.kind hbasic) hy
  · have hhas : v.Has g cells t.world.store elem := Value.Has.into
      (Value.has_basic (Constant.isBasic_resultKind hbasic) hv) (into_resultKind hop rfl hbasic)
    obtain ⟨t', hlater, hstack, hstore⟩ := hs.exec_store hp hhas
    refine .inl ⟨t', hlater, hstack, fun ops => ?_⟩
    exact (Task.exec_bind_ok (hload ops)).trans ((Task.exec_bind_ok (hexec _)).trans (hstore ops))
  · exact .inr ⟨c, hc, fun ops => (Task.exec_bind_ok (hload ops)).trans
      (Task.exec_bind_error (hexec _))⟩

/-- The instruction takes a pointer from the stack and updates what lies behind it. -/
theorem does_update {op : Operator} {elem u : Ty} {p : Place} {y : Value} {ops' : List Value}
    (hs : Standing g cells b ctx below args τ t ops') (hp : g.typeAt? cells t.world.store p = some elem)
    (hop : op.hasUpdateForm = true) (h : op.Applies elem.kind elem u) (hy : y.kind = u.kind)
    (hexec : ∀ (m : Machine) (call : Caller), (m.perform call ctx i).exec (t.holding ops) =
      (Run.updatePlace op elem.kind p y).exec (t.holding ops')) :
    i.Does g cells b ctx below args t ops τ := by
  obtain ⟨t', hlater, hstack, hupdate⟩ | ⟨c, hc, hupdate⟩ := hs.exec_updatePlace hp hop h hy
  · exact .next (fun m call _ => (hexec m call).trans (hupdate ops')) hlater (hs.later hlater hstack)
      fun _ => rfl
  · exact .fails (fun m call _ => (hexec m call).trans (hupdate ops')) (.inl hc) rfl

theorem does_stepAt {ty elem : Ty} {up : Bool}
    (hs : Standing g cells b ctx below args (.value ty :: τ) t ops) (hty : ty.underlying = .ptr elem)
    (hnum : elem.kind.isNumeric = true) :
    (Instr.addrOp (some elem.kind) (some (stepAddress up))).Does g cells b ctx below args t ops τ := by
  obtain hnil | ⟨p, rest, hp, hrest, hexec⟩ :=
    hs.follows (i := .addrOp (some elem.kind) (some (stepAddress up))) hty (fun _ _ => rfl) τ
  · exact hnil
  · obtain ⟨one, hone⟩ := Value.exists_convert_one hnum
    refine hrest.does_update hp (show (stepOperator up).hasUpdateForm = true by cases up <;> rfl)
      (applies_step hnum rfl)
      (Value.kind_of_convert hone) fun m call => (hexec m call).trans ?_
    have hconvert : Run.convert (.int 1) elem.kind = pure one := by rw [Run.convert, hone]
    cases up
    · exact (Task.exec_bind_ok (by rw [hconvert]; rfl)).trans rfl
    · exact (Task.exec_bind_ok (by rw [hconvert]; rfl)).trans rfl

theorem does_updateAt {ty elem u : Ty} {op : Operator}
    (hs : Standing g cells b ctx below args (.value ty :: .value u :: τ) t ops)
    (hty : ty.underlying = .ptr elem) (hop : op.hasUpdateForm = true)
    (h : op.Applies elem.kind elem u) :
    (Instr.addrOp (some elem.kind) (some (.update op))).Does g cells b ctx below args t ops τ := by
  obtain hnil | ⟨p, rest, hp, hrest, hexec⟩ :=
    hs.follows (i := .addrOp (some elem.kind) (some (.update op))) hty (fun _ _ => rfl) τ
  · exact hnil
  · obtain ⟨y, rest, rfl, hy, hlast⟩ := hrest.uncons
    obtain ⟨x, hx, -⟩ := hlast.exec_load hp
    exact hlast.does_update hp hop h (kinds_of_applies h hx hy).2 fun m call =>
      (hexec m call).trans (Task.exec_bind_ok Run.exec_pop_holding)

/-- A kind that no instruction can name. -/
theorem does_unnamed {op : AddressOperator} (hlax : g.lax) :
    (Instr.addrOp none (some op)).Does g cells b ctx below args t ops τ :=
  .fails (e := .of (.defect .addressOperand)) (u := t.holding ops) (fun _ _ _ => rfl)
    (.inr ⟨hlax, .unnamed⟩) rfl

theorem does_loadAt {ty elem : Ty} {k : Option Kind}
    (hs : Standing g cells b ctx below args (.value ty :: τ) t ops) (hlax : g.lax)
    (hty : ty.underlying = .ptr elem) :
    (Instr.addrOp k (some .load)).Does g cells b ctx below args t ops (.value elem :: τ) := by
  cases k with
  | none => exact does_unnamed hlax
  | some k => exact hs.loads hty fun _ _ => rfl

theorem does_storeAt {ty elem : Ty} {k : Option Kind}
    (hs : Standing g cells b ctx below args (.value ty :: .value elem :: τ) t ops)
    (hlax : g.lax) (hty : ty.underlying = .ptr elem) :
    (Instr.addrOp k (some .store)).Does g cells b ctx below args t ops τ := by
  cases k with
  | none => exact does_unnamed hlax
  | some k =>
    obtain hnil | ⟨p, rest, hp, hrest, hexec⟩ := hs.follows (i := .addrOp (some k) (some .store)) hty
      (fun _ _ => rfl) τ
    · exact hnil
    · obtain ⟨w, rest, rfl, hw, hlast⟩ := hrest.uncons
      obtain ⟨t', hlater, hstack, hstore⟩ := hlast.exec_store hp hw
      refine .next (o := rest) (fun m call _ => (hexec m call).trans ?_) hlater
        (hlast.later hlater hstack) fun _ => rfl
      exact (Task.exec_bind_ok Run.exec_pop_holding).trans (hstore rest)

/-! ## Calls of script functions -/

/-- What a function that can be entered has of its signature. -/
theorem signed_of_enters {file : File} (hcode : FileCode g.out file) {id : Nat} {f : FuncInfo}
    {sig : Signature} (h : g.Enters id f sig) : f.params = sig.params ∧ f.isVariadic = sig.variadic ∧
      (sig.variadic = true → sig.Packs) := by
  cases hcode.funcs id f h.info h.ended with
  | mk hparams hsigned =>
    cases (hsigned.sig? h.info).symm.trans h.sig
    refine ⟨hparams, hsigned.isVariadic, fun hvariadic => ?_⟩
    obtain ⟨elem, hlast⟩ := hsigned.last hvariadic
    exact ⟨.slice elem, elem, hlast, rfl⟩

theorem does_callFunc {file : File} (hcode : FileCode g.out file) {place id : Nat} {sig : Signature}
    (hs : Standing g cells b ctx below args (Slot.values sig.params ++ τ) t ops)
    (h : Entry g b false place id sig) :
    (Instr.callFunc place).Does g cells b ctx below args t ops (Slot.values sig.results ++ τ) := by
  obtain ⟨f, henters⟩ := h.enters hcode
  obtain ⟨vs, rest, rfl, hvs, hrest⟩ := hs.takes
  obtain ⟨parent, hparent, hexec⟩ := hrest.exec_parentOf hcode henters.info henters.ended h.nest
  refine .script (fun m call hm => ?_) (.refl hs.typed) hrest henters hparent hvs rfl
  have hat : m.program.At id false place := by rw [hm.program]; exact h.entry
  unfold Machine.perform
  refine (Task.exec_bind_ok (Machine.exec_tableEntry hat)).trans ?_
  rw [hm.func henters.info, ← Thread.holding_append]
  exact (Task.exec_bind_ok (a := f) rfl).trans (Task.exec_bind_ok (hexec _))

theorem does_callFuncv {file : File} (hcode : FileCode g.out file) {field : ArityField} {arity : Arity}
    {σ : List Slot} {place id : Nat} {sig : Signature} {ts : List Ty}
    (hs : Standing g cells b ctx below args (σ ++ (Slot.values ts ++ τ)) t ops)
    (h : Entry g b true place id sig) (hreads : field.Reads arity σ) (hts : arity.Brings sig 0 ts) :
    (Instr.callFuncv field place).Does g cells b ctx below args t ops
      (Slot.values sig.results ++ τ) := by
  obtain ⟨f, henters⟩ := h.enters hcode
  obtain ⟨hparams, -, hpacks⟩ := signed_of_enters hcode henters
  obtain ⟨fixed, last, elem, hsplit, hunder⟩ := (hpacks h.variadic).split
  obtain ⟨top, htop, hread⟩ := exec_readArity hreads hs
  obtain ⟨t', vs, rest, hlater, hrest, hvs, hpack⟩ := exec_pack hts h.variadic hsplit hunder htop
  obtain ⟨parent, hparent, hexec⟩ := hrest.exec_parentOf hcode henters.info henters.ended h.nest
  refine .script (fun m call hm => ?_) hlater hrest henters hparent hvs rfl
  have hat : m.program.At id true place := by rw [hm.program]; exact h.entry
  unfold Machine.perform
  refine (Task.exec_bind_ok (Machine.exec_tableEntry hat)).trans ((Task.exec_bind_ok hread).trans ?_)
  rw [hm.func henters.info, ← Thread.holding_append]
  refine (Task.exec_bind_ok (a := f) rfl).trans ?_
  rw [Machine.packScript_eq (hparams.trans hsplit)]
  exact (Task.exec_bind_ok (hpack f.name)).trans (Task.exec_bind_ok (hexec _))

/-- An instruction that calls a closure. -/
theorem does_closureCall {file : File} (hcode : FileCode g.out file) {c : Closure} {arity : Arity}
    {ts : List Ty} {rest : List Value} (hc : c.Sound g t.world.store) (hts : arity.Brings c.sig 0 ts)
    (hs : Standing g cells b ctx below args (Slot.values ts ++ τ) t rest)
    (hi : ∀ (m : Machine) (call : Caller),
      (m.perform call ctx i).exec (t.holding ops) = (m.callClosure call c arity).exec (t.holding rest)) :
    i.Does g cells b ctx below args t ops (Slot.values c.sig.results ++ τ) := by
  obtain ⟨f, hf, hstop⟩ := hc.ended
  have henters : g.Enters c.func f c.sig := ⟨hf, hstop, hc.sig⟩
  obtain ⟨hparams, hisVariadic, hpacks⟩ := signed_of_enters hcode henters
  cases hvariadic : c.sig.variadic with
  | true =>
    obtain ⟨fixed, last, elem, hsplit, hunder⟩ := (hpacks hvariadic).split
    obtain ⟨t', vs, rest', hlater, hrest, hvs, hpack⟩ := exec_pack hts hvariadic hsplit hunder hs
    refine .script (fun m call hm => (hi m call).trans ?_) hlater hrest henters
      (hc.nested.mono hlater.world.grows) hvs rfl
    rw [Machine.callClosure_eq (by rw [hm.program]; exact hf) (hisVariadic.trans hvariadic)
      (hparams.trans hsplit), ← Thread.holding_append]
    exact Task.exec_bind_ok (hpack f.name)
  | false =>
    have hfixed := hts
    obtain rfl := hts.fixed hvariadic
    obtain ⟨vs, rest', rfl, hvs, hrest⟩ := hs.takes
    refine .script (fun m call hm => (hi m call).trans ?_) (.refl hs.typed) hrest henters hc.nested hvs rfl
    unfold Machine.callClosure
    rw [hm.func hf, ← Thread.holding_append]
    refine (Task.exec_bind_ok (a := f) rfl).trans ?_
    rw [hisVariadic, hvariadic, if_neg Bool.false_ne_true, FuncInfo.numIn, hparams]
    exact Task.exec_bind_ok (exec_checkCount hfixed hvariadic f.name _)

theorem does_callClosure {file : File} (hcode : FileCode g.out file) {arity : Arity} {sig : Signature}
    {ts : List Ty} (hs : Standing g cells b ctx below args (.closure sig :: (Slot.values ts ++ τ)) t ops)
    (hts : arity.Brings sig 0 ts) :
    (Instr.callClosure arity).Does g cells b ctx below args t ops (Slot.values sig.results ++ τ) := by
  obtain ⟨_, rest, rfl, ⟨c, rfl, hc, rfl⟩, hrest⟩ := hs.uncons
  refine does_closureCall hcode hc hts hrest fun m call => ?_
  unfold Machine.perform
  exact Task.exec_bind_ok Run.exec_pop_holding

/-! ## Calls of host functions -/

theorem does_callNative {addr : Nat} {x : NativeFunc}
    (hs : Standing g cells b ctx below args (Slot.values x.func.sig.params ++ τ) t ops)
    (hn : g.out.registry.natives.Typed g) (h : g.out.registry.natives.funcs[addr]? = some x)
    (hfixed : x.func.sig.variadic = false) :
    (Instr.callNative addr).Does g cells b ctx below args t ops
      (Slot.values x.func.sig.results ++ τ) := by
  obtain ⟨vs, rest, rfl, hvs, hrest⟩ := hs.takes
  have hsound := FuncValue.Sound.mono (hn.funcs x (Array.mem_of_getElem? h)) hs.typed.since
  refine .host x.name (fun m call hm => ?_) (.refl hs.typed) hrest hsound hvs.offered rfl
  unfold Machine.perform
  dsimp only
  rw [hm.funcs, h]
  refine Task.exec_bind_ok ?_
  unfold Run.takeArgs
  rw [hfixed, if_neg Bool.false_ne_true, Run.checkCount, if_pos rfl]
  exact (Task.exec_bind_ok (a := ()) rfl).trans (exec_popMany (List.Forall₂.length_eq hvs))

/-- An instruction that takes the arguments of a host function and calls it. -/
theorem does_hostCall {f : FuncValue} {arity : Arity} {rest : List Value} (name : String)
    (hf : f.Sound g t.world.store)
    (htakes : (∃ c u, g.Fails c ∧ (Run.takeArgs f.sig name arity).exec (t.holding rest) =
        (.error (.error (.of c)), u) ∧ u.world = t.world) ∨
      ∃ t' vs rest', t.Later g cells cells t' ∧ Standing g cells b ctx below args τ t' rest' ∧
        f.sig.Offered g cells t'.world.store vs ∧
        (Run.takeArgs f.sig name arity).exec (t.holding rest) = (.ok vs, t'.holding rest'))
    (hi : ∀ (m : Machine) (call : Caller), m.Shows g →
      (m.perform call ctx i).exec (t.holding ops) =
        (do m.callHost call f name (← Run.takeArgs f.sig name arity)).exec (t.holding rest)) :
    i.Does g cells b ctx below args t ops (Slot.values f.sig.results ++ τ) := by
  obtain ⟨c, u, hc, hexec, hworld⟩ | ⟨t', vs, rest', hlater, hrest, hvs, hexec⟩ := htakes
  · exact .fails (fun m call hm => (hi m call hm).trans (Task.exec_bind_error hexec)) hc hworld
  · exact .host name (fun m call hm => (hi m call hm).trans (Task.exec_bind_ok hexec)) hlater hrest
      (hf.mono hlater.world.grows) hvs rfl

/-- A variadic host function that is called by its place takes its arguments as any other. -/
theorem exec_callNativev {m : Machine} {call : Caller} (hm : m.Shows g) {field : ArityField}
    {arity : Arity} {addr : Nat} {x : NativeFunc} {rest : List Value}
    (h : g.out.registry.natives.funcvs[addr]? = some x) (hvariadic : x.func.sig.variadic = true)
    (hread : (Run.readArity field).exec (t.holding ops) = (.ok arity, t.holding rest)) :
    (m.perform call ctx (.callNativev field addr)).exec (t.holding ops) =
      (do m.callHost call x.func x.name (← Run.takeArgs x.func.sig x.name arity)).exec
        (t.holding rest) := by
  unfold Machine.perform Run.takeArgs
  dsimp only
  rw [hm.funcvs, h, if_pos hvariadic]
  simp only [bind_assoc]
  exact Task.exec_bind_ok hread

/-- The arguments of a host function that is sound can be packed, unless code is lax. -/
theorem packs_of_sound {file : File} (hcode : FileCode g.out file) (hpacks : g.lax ∨ g.Packs)
    {f : FuncValue} {s : Store} (hf : f.Sound g s) : g.lax ∨ (f.sig.variadic = true → f.sig.Packs) := by
  obtain ⟨sig, index | c⟩ := f
  · exact hpacks.imp_right fun h => h.hosts index sig hf
  · obtain ⟨hc, rfl⟩ := hf
    obtain ⟨f, hf, hstop⟩ := hc.ended
    exact .inr (signed_of_enters hcode ⟨hf, hstop, hc.sig⟩).2.2

theorem does_callNativev {file : File} (hcode : FileCode g.out file) (hpacks : g.lax ∨ g.Packs)
    {field : ArityField} {arity : Arity} {σ : List Slot} {addr : Nat} {x : NativeFunc} {ts : List Ty}
    (hs : Standing g cells b ctx below args (σ ++ (Slot.values ts ++ τ)) t ops)
    (hn : g.out.registry.natives.Typed g) (h : g.out.registry.natives.funcvs[addr]? = some x)
    (hvariadic : x.func.sig.variadic = true) (hreads : field.Reads arity σ)
    (hts : arity.Brings x.func.sig 0 ts) :
    (Instr.callNativev field addr).Does g cells b ctx below args t ops
      (Slot.values x.func.sig.results ++ τ) := by
  obtain ⟨top, htop, hread⟩ := exec_readArity hreads hs
  have hsound := FuncValue.Sound.mono (hn.funcvs x (Array.mem_of_getElem? h)) hs.typed.since
  exact does_hostCall x.name hsound (takes_args hts (packs_of_sound hcode hpacks hsound) htop x.name)
    fun m call hm => exec_callNativev hm h hvariadic hread

theorem does_callMethodv (hlax : g.lax) {field : ArityField} {n : Nat} {σ : List Slot} {addr : Nat}
    {x : NativeFunc} {recv : Ty}
    (hs : Standing g cells b ctx below args
      (σ ++ (Slot.values (recv :: List.replicate n (Compile.trailing x.func.sig)) ++ τ)) t ops)
    (hn : g.out.registry.natives.Typed g) (h : g.out.registry.natives.funcvs[addr]? = some x)
    (hvariadic : x.func.sig.variadic = true) (hproper : recv.Proper D)
    (hparams : x.func.sig.params = [recv]) (hreads : field.Reads (.count (n + 1)) σ) :
    (Instr.callNativev field addr).Does g cells b ctx below args t ops
      (Slot.values x.func.sig.results ++ τ) := by
  obtain ⟨top, htop, hread⟩ := exec_readArity hreads hs
  have hsound := FuncValue.Sound.mono (hn.funcvs x (Array.mem_of_getElem? h)) hs.typed.since
  have htrailing : Compile.trailing x.func.sig = recv.elem?.getD .any := by
    simp [Compile.trailing, Signature.variadicElem?, hvariadic, hparams]
  refine does_hostCall x.name hsound (exec_offered hlax hvariadic (fun fixed last heq => ?_) htop x.name)
    fun m call hm => exec_callNativev hm h hvariadic hread
  obtain ⟨rfl, rfl⟩ : fixed = [] ∧ last = recv := by
    rw [hparams] at heq
    cases fixed <;> simp_all
  rw [htrailing]
  refine .count (by simp) fun u hu => ?_
  obtain rfl | hu := List.mem_cons.1 hu
  · exact hproper.suits
  · exact (List.mem_replicate.1 hu).2 ▸ .refl _

theorem does_callValue {file : File} (hcode : FileCode g.out file) (hpacks : g.lax ∨ g.Packs)
    {arity : Arity} {ty : Ty} {sig : Signature} {ts : List Ty}
    (hs : Standing g cells b ctx below args (.value ty :: (Slot.values ts ++ τ)) t ops)
    (hty : ty.underlying = .func sig) (hts : arity.Brings sig 0 ts) :
    (Instr.callValue arity).Does g cells b ctx below args t ops (Slot.values sig.results ++ τ) := by
  obtain ⟨v, rest, rfl, hv, hrest⟩ := hs.uncons
  obtain rfl | ⟨c, rfl, hc, rfl⟩ | ⟨f, rfl, hf, rfl⟩ := Value.Has.func hv hty
  · refine .fails (e := .of .nilCall) (u := t.holding rest) (fun m call _ => ?_)
      (.inl Cause.Permitted.nilCall) rfl
    unfold Machine.perform
    exact (Task.exec_bind_ok Run.exec_pop_holding).trans rfl
  · refine does_closureCall hcode hc hts hrest fun m call => ?_
    unfold Machine.perform
    exact Task.exec_bind_ok Run.exec_pop_holding
  · obtain ⟨sig, index | c⟩ := f
    · refine does_hostCall (f := ⟨sig, .host index⟩) "func value" hf
        (takes_args hts (packs_of_sound hcode hpacks hf) hrest _) fun m call hm => ?_
      unfold Machine.perform
      exact Task.exec_bind_ok Run.exec_pop_holding
    · obtain ⟨hc, rfl⟩ := hf
      refine does_closureCall hcode hc hts hrest fun m call => ?_
      unfold Machine.perform
      exact Task.exec_bind_ok Run.exec_pop_holding

end Standing

/-! ## All instructions -/

/-- An instruction of typed code that is no return. -/
theorem Effect.does (hg : g.Consistent D) (hn : g.out.registry.natives.Typed g) {τ' : List Slot}
    (h : Effect g b τ i τ') (hi : Balance.isReturn i = false)
    (hs : Standing g cells b ctx below args τ t ops) :
    i.Does g cells b ctx below args t ops τ' := by
  obtain ⟨file, hcode⟩ := hg.code
  cases h with
  | push hpush hv => exact hs.does_pushed hpush (x := .value (.basic _)) (Value.has_basic hv rfl)
  | count hpush hcount => exact hs.does_pushed hpush (x := .count _) hcount
  | pop => exact hs.does_pop
  | loadVar h => exact hs.does_loadVar h
  | storeVar h => exact hs.does_storeVar h
  | addrVar h => exact hs.does_addrVar h
  | loadArg h => exact hs.does_loadArg h
  | storeArg h => exact hs.does_storeArg h
  | loadNativeVar h => exact hs.does_loadNativeVar hn h
  | builtinOp h => exact hs.does_builtinOp h
  | convert hk ht h => exact hs.does_convert hk ht h
  | callFunc h => exact Standing.does_callFunc hcode hs h
  | callFuncv h hreads hts => exact Standing.does_callFuncv hcode hs h hreads hts
  | callNative h => exact Standing.does_callNative hs hn h (hg.registry.funcs _ (Array.mem_of_getElem? h)).2
  | callNativev h hreads hts =>
    have hvariadic := (hg.registry.funcvs _ (Array.mem_of_getElem? h)).2
    exact Standing.does_callNativev hcode hg.packs hs hn h hvariadic hreads hts
  | callMethodv hlax h hparams hreads =>
    obtain ⟨hproper, hvariadic⟩ := hg.registry.funcvs _ (Array.mem_of_getElem? h)
    have hrecv := hproper.types.1 _ (hparams ▸ List.mem_cons_self)
    exact Standing.does_callMethodv hlax hs hn h hvariadic hrecv hparams hreads
  | pushNative h => exact hs.does_pushNative hn h
  | pushNativev h => exact hs.does_pushNativev hn h
  | closure h => exact hs.does_closure hcode h
  | hostClosure h => exact hs.does_hostClosure hcode h
  | callClosure hts => exact Standing.does_callClosure hcode hs hts
  | callValue ht hts => exact Standing.does_callValue hcode hg.packs hs ht hts
  | deref ht => exact hs.does_deref ht
  | field ht hx => exact hs.does_field ht hx
  | stepAt ht hnum => exact hs.does_stepAt ht hnum
  | updateAt ht hop h => exact hs.does_updateAt ht hop h
  | loadAt hlax ht => exact hs.does_loadAt hlax ht
  | storeAt hlax ht => exact hs.does_storeAt hlax ht
  | ret | retVars => cases hi

end

end StackScript
