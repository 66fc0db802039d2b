import StackScript.Proofs.Running.Lineage

/-!
# Frames are never lost

Whatever a machine does to a store, the frames that are there stay, with their functions, their parents
and as many slots, and no cell is lost (`Store.Grows`). One lemma for each operation says so of the
instructions (`Machine.frames_perform`), and so of bodies, calls and whole runs, however they end, if it
holds of host functions (`HostBody.KeepsFrames`).
-/

namespace StackScript

/-! ## Worlds and threads -/

/-- No frame and no cell of the world is lost. -/
def World.Grows (w w' : World) : Prop := w.store.Grows w'.store

/-- No frame and no cell is lost in the world of the thread. -/
def Thread.Grows (t t' : Thread) : Prop := t.world.Grows t'.world

instance : IsPreorder World World.Grows where
  refl w := .refl w.store
  trans _ _ _ := Store.Grows.trans

instance : IsPreorder Thread Thread.Grows where
  refl t := .refl t.world.store
  trans _ _ _ := Store.Grows.trans

/-- A host function that loses no frame if the calls that it makes lose none. -/
def HostBody.KeepsFrames (body : HostBody) : Prop :=
  ∀ call : Invoker, (∀ f args, (call f args).Relates World.Grows) →
    ∀ args, (body call args).Relates World.Grows

theorem Store.Grows.newFrame (s : Store) (frame : Frame) : s.Grows (s.newFrame frame).2 := .push s frame

theorem Store.Grows.number (s : Store) : s.Grows s.number.2 := .of_eq rfl rfl

namespace HostTask

variable {α : Type}

theorem frames_fail (c : Cause) : (fail c : HostTask α).Relates World.Grows := .stop _

theorem frames_ofExcept (r : Except Cause α) : (HostTask.ofExcept r).Relates World.Grows := by
  cases r with
  | ok a => exact .pure a
  | error c => exact frames_fail c

theorem frames_allocate {make : Store → α × Store} (h : ∀ s : Store, s.Grows (make s).2) :
    (allocate make).Relates World.Grows := ⟨fun w => h w.store⟩

theorem frames_load (p : Place) : (load p).Relates World.Grows := by
  refine .bind .get fun w => ?_
  split
  · exact .pure _
  · exact frames_fail _
  · exact .stop _

theorem frames_store (p : Place) (v : Value) : (store p v).Relates World.Grows :=
  ⟨fun w => by
    unfold HostTask.store
    rw [Task.exec_bind, Task.exec_get]
    dsimp only
    split
    · exact Store.Grows.store ‹_›
    · exact .refl _
    · exact .refl _⟩

/-- The depth that is published is no part of a frame. -/
theorem frames_atDepth {t : HostTask α} (h : t.Relates World.Grows) (depth : Nat) :
    (t.atDepth depth).Relates World.Grows :=
  ⟨fun w => by
    have hbefore : w.Grows (w.publishing depth) := .of_eq rfl rfl
    have hafter : (t.exec (w.publishing depth)).2.Grows
        ((t.exec (w.publishing depth)).2.publishing w.store.hostDepth) := .of_eq rfl rfl
    exact (hbefore.trans (h.related (w.publishing depth))).trans hafter⟩

end HostTask

namespace Run

variable {α β : Type} {t : Run α}

theorem frames_onWorld {t : HostTask α} (h : t.Relates World.Grows) :
    (onWorld t).Relates Thread.Grows := ⟨fun s => h.related s.world⟩

theorem frames_within {name : String} (h : t.Relates Thread.Grows) :
    (t.within name).Relates Thread.Grows :=
  ⟨fun s => by
    have hs := h.related s
    unfold Run.within
    rw [Task.exec_mapError]
    generalize t.exec s = r at hs
    obtain ⟨(e | x) | a, s'⟩ := r <;> exact hs⟩

theorem frames_fail (c : Cause) : (fail c : Run α).Relates Thread.Grows := .stop _

theorem frames_failBind {c : Cause} {f : α → Run β} : (fail c >>= f).Relates Thread.Grows :=
  ⟨fun s => .refl s.world.store⟩

theorem frames_ofExcept (r : Except Cause α) : (Run.ofExcept r).Relates Thread.Grows := by
  cases r with
  | ok a => exact .pure a
  | error c => exact frames_fail c

/-! ### The stack -/

theorem frames_setStack (st : Stack) : (setStack st).Relates Thread.Grows :=
  .modify fun s => .refl s.world.store

theorem frames_push (v : Value) : (push v).Relates Thread.Grows := .modify fun s => .refl s.world.store

theorem frames_pushAll (vs : List Value) : (pushAll vs).Relates Thread.Grows :=
  .modify fun s => .refl s.world.store

theorem frames_height : height.Relates Thread.Grows := .bind .get fun _ => .pure _

theorem frames_pop : pop.Relates Thread.Grows :=
  .bind .get fun _ => .bind (frames_ofExcept _) fun _ => .bind (frames_setStack _) fun _ => .pure _

theorem frames_popMany (n : Nat) : (popMany n).Relates Thread.Grows :=
  .bind .get fun _ => .bind (frames_ofExcept _) fun _ => .bind (frames_setStack _) fun _ => .pure _

theorem frames_drop (n : Nat) : (drop n).Relates Thread.Grows := by
  refine .bind .get fun s => ?_
  dsimp only
  split
  · exact frames_fail _
  · exact frames_setStack _

/-! ### Places -/

theorem frames_frameOf (ctx : Nat) (scope : Scope) : (frameOf ctx scope).Relates Thread.Grows := by
  cases scope with
  | global => exact .bind .get fun _ => .pure _
  | up n =>
    refine .bind .get fun s => ?_
    split
    · exact .pure _
    · exact frames_fail _

theorem frames_load (p : Place) : (load p).Relates Thread.Grows := frames_onWorld (HostTask.frames_load p)

theorem frames_store (p : Place) (v : Value) : (store p v).Relates Thread.Grows :=
  frames_onWorld (HostTask.frames_store p v)

theorem frames_allocate {make : Store → α × Store} (h : ∀ s : Store, s.Grows (make s).2) :
    (onWorld (HostTask.allocate make)).Relates Thread.Grows :=
  frames_onWorld (HostTask.frames_allocate h)

theorem frames_pointee (v : Value) : (pointee v).Relates Thread.Grows := by
  unfold pointee
  split
  · exact .pure _
  · exact frames_fail _
  · exact frames_fail _

theorem frames_argumentHeight (ctx below : Nat) : (argumentHeight ctx below).Relates Thread.Grows := by
  refine .bind .get fun _ => .bind (.expect _) fun _ => ?_
  split
  · exact frames_fail _
  · exact .pure _

/-! ### Operators -/

theorem frames_evaluate (op : Operator) (k : Kind) (x y : Value) :
    (evaluate op k x y).Relates Thread.Grows := frames_ofExcept _

theorem frames_convert (v : Value) (k : Kind) : (convert v k).Relates Thread.Grows := by
  unfold convert
  split
  · exact .pure _
  · exact frames_fail _

theorem frames_updatePlace (op : Operator) (k : Kind) (p : Place) (y : Value) :
    (updatePlace op k p y).Relates Thread.Grows :=
  .bind (frames_load p) fun _ => .bind (frames_evaluate ..) fun _ => frames_store ..

theorem frames_applyAddress (k : Kind) (op : AddressOperator) (p : Place) :
    (applyAddress k op p).Relates Thread.Grows := by
  cases op with
  | load => exact .bind (frames_load p) fun _ => frames_push _
  | store => exact .bind frames_pop fun _ => frames_store ..
  | increment => exact .bind (frames_convert ..) fun _ => frames_updatePlace ..
  | decrement => exact .bind (frames_convert ..) fun _ => frames_updatePlace ..
  | update op => exact .bind frames_pop fun _ => frames_updatePlace ..

/-! ### Arguments -/

theorem frames_readArity (field : ArityField) : (readArity field).Relates Thread.Grows := by
  cases field with
  | spread => exact .pure _
  | count n => exact .pure _
  | overflow =>
    refine .bind frames_pop fun v => ?_
    split
    · split
      · exact frames_fail _
      · exact .pure _
    · exact frames_fail _

theorem frames_lastParam (params : List Ty) (numIn : Nat) (callee : String) :
    (lastParam params numIn callee).Relates Thread.Grows := by
  unfold lastParam
  split
  · exact frames_fail _
  · split
    · exact .pure _
    · exact frames_fail _

theorem frames_newSlice (elem : Ty) (items : List Value) :
    (onWorld (HostTask.newSlice elem items)).Relates Thread.Grows := frames_allocate Store.Grows.number

theorem frames_pack (last : Ty) (fixed : Nat) (callee : String) (arity : Arity) :
    (pack last fixed callee arity).Relates Thread.Grows := by
  unfold pack
  dsimp only
  cases arity with
  | spread =>
    refine .bind frames_pop fun v => ?_
    split
    · exact .bind (frames_newSlice ..) fun _ => frames_push _
    · exact frames_push _
    · exact frames_fail _
  | count n =>
    dsimp only
    split
    · exact frames_failBind
    · refine .bind (frames_popMany _) fun items => ?_
      split
      · exact frames_fail _
      · exact .bind (frames_newSlice ..) fun _ => frames_push _

theorem frames_checkCount (callee : String) (numIn : Nat) (arity : Arity) :
    (checkCount callee numIn arity).Relates Thread.Grows := by
  unfold checkCount
  split
  · split
    · exact .pure _
    · exact frames_fail _
  · exact frames_fail _

theorem frames_takeArgs (sig : Signature) (callee : String) (arity : Arity) :
    (takeArgs sig callee arity).Relates Thread.Grows := by
  unfold takeArgs
  split
  · exact .bind (frames_lastParam ..) fun _ => .bind (frames_pack ..) fun _ => frames_popMany _
  · exact .bind (frames_checkCount ..) fun _ => frames_popMany _

end Run

/-! ## Machines -/

namespace Machine

variable {m : Machine} {call : Caller} {ctx : Nat}

open Run

theorem frames_parentOf (f : FuncInfo) : (parentOf f ctx).Relates Thread.Grows := by
  unfold parentOf
  split
  · exact .bind .get fun _ => .pure _
  · exact .pure _

theorem frames_varType (frame index : Nat) : (m.varType frame index).Relates Thread.Grows := by
  refine .bind .get fun _ => .bind (.expect _) fun f => ?_
  extract_lets find
  have hfind (vars : Array Nat) : (find vars).Relates Thread.Grows := by
    dsimp only [find]
    split
    · exact .bind (.ofChecked _) fun _ => .pure _
    · exact frames_fail _
  split
  · exact .bind (.ofChecked _) fun _ => .bind (.pure _) fun _ => hfind _
  · exact .bind (.pure _) fun _ => hfind _

theorem frames_tableEntry (variadic : Bool) (index : Nat) :
    (m.tableEntry variadic index).Relates Thread.Grows := by
  unfold tableEntry
  split
  · exact frames_fail _
  · exact .pure _

theorem frames_makeClosure (variadic : Bool) (index : Nat) :
    (m.makeClosure ctx variadic index).Relates Thread.Grows := by
  unfold makeClosure
  split
  · exact frames_fail _
  · exact .bind (.ofChecked _) fun _ => .bind (frames_parentOf _) fun _ =>
      .bind (.ofChecked _) fun _ => .bind (frames_allocate Store.Grows.number) fun _ => .pure _

theorem frames_packScript (f : FuncInfo) (arity : Arity) : (packScript f arity).Relates Thread.Grows :=
  .bind (frames_lastParam ..) fun _ => frames_pack ..

theorem frames_pushConst (index : Nat) :
    (m.perform call ctx (.pushConst index)).Relates Thread.Grows := by
  unfold perform
  dsimp only
  split
  · exact frames_push _
  · exact frames_fail _

theorem frames_pushNative (addr : Nat) :
    (m.perform call ctx (.pushNative addr)).Relates Thread.Grows := by
  unfold perform
  dsimp only
  split
  · exact frames_fail _
  · exact frames_push _

theorem frames_pushNativev (addr : Nat) :
    (m.perform call ctx (.pushNativev addr)).Relates Thread.Grows := by
  unfold perform
  dsimp only
  split
  · exact frames_fail _
  · exact frames_push _

theorem frames_loadNativeVar (addr : Nat) :
    (m.perform call ctx (.loadNativeVar addr)).Relates Thread.Grows := by
  unfold perform
  dsimp only
  split
  · exact .bind (frames_load _) fun _ => frames_push _
  · exact frames_fail _

theorem frames_addrOp (k : Option Kind) (op : Option AddressOperator) :
    (m.perform call ctx (.addrOp k op)).Relates Thread.Grows := by
  unfold perform
  dsimp only
  split
  · exact .bind frames_pop fun _ => .bind (frames_pointee _) fun _ => frames_applyAddress ..
  · exact frames_fail _

theorem frames_builtinOp (k : Option Kind) (op : Option Operator) :
    (m.perform call ctx (.builtinOp k op)).Relates Thread.Grows := by
  unfold perform
  dsimp only
  split
  · exact .bind frames_pop fun _ => .bind frames_pop fun _ => .bind (frames_evaluate ..) fun _ =>
      frames_push _
  · exact frames_fail _

theorem frames_field (index : Nat) : (m.perform call ctx (.field index)).Relates Thread.Grows := by
  refine .bind frames_pop fun v => ?_
  split
  · split
    · exact frames_push _
    · exact frames_fail _
  · exact frames_fail _

theorem frames_openFrame (id parent : Nat) (f : FuncInfo) :
    (m.openFrame id parent f).Relates Thread.Grows := by
  refine .bind frames_height fun _ => ?_
  split
  · exact frames_failBind
  · exact .bind (.expect _) fun _ => frames_allocate fun s => .newFrame s _

theorem frames_finish (height numOut frame : Nat) (n : Option Nat) :
    (finish height numOut frame n).Relates Thread.Grows := by
  cases n with
  | some n => exact .bind .get fun _ => .bind (frames_ofExcept _) fun _ => frames_setStack _
  | none => exact .bind .get fun _ => .bind (.expect _) fun _ => frames_setStack _

theorem frames_tick : m.tick.Relates Thread.Grows := by
  refine .bind (.modify fun s => .refl s.world.store) fun _ => .bind .get fun s => ?_
  have hstack : (if m.limits.stackSize < s.stack.size then
      Run.fail (.stackLimit m.limits.stackSize) else pure () : Run Unit).Relates Thread.Grows := by
    split
    · exact frames_fail _
    · exact .pure _
  dsimp only
  split
  · split
    · exact frames_failBind
    · exact hstack
  · exact hstack

theorem frames_descend (name : String) : (m.descend name).Relates Thread.Grows := by
  refine .bind (.modify fun s => .refl s.world.store) fun _ => .bind .get fun s => ?_
  split
  · exact frames_fail _
  · exact .pure _

/-! ### Instructions -/

section

variable (hbodies : ∀ body ∈ m.natives.bodies, body.KeepsFrames)
  (hcall : ∀ id parent, (call id parent).Relates Thread.Grows)

include hcall

theorem frames_callFresh (c : Closure) (args : List Value) :
    (m.callFresh call c args).Relates World.Grows := by
  refine .bind (.ofChecked _) fun f => ?_
  have hcalled (w : World) :=
    (hcall c.func c.parent).related ⟨w, args.toArray, 0, w.store.hostDepth⟩
  dsimp only
  split
  · exact .bind (HostTask.frames_fail _) fun _ => ⟨hcalled⟩
  · exact ⟨hcalled⟩

theorem frames_callClosure (c : Closure) (arity : Arity) :
    (m.callClosure call c arity).Relates Thread.Grows := by
  refine .bind (.ofChecked _) fun f => ?_
  dsimp only
  split
  · exact .bind (frames_packScript ..) fun _ => hcall _ _
  · exact .bind (frames_checkCount ..) fun _ => hcall _ _

include hbodies

/-- Host functions lose no frame, at whatever depth they call each other. -/
theorem frames_invoke (f : FuncValue) (args : List Value) :
    (m.invoke call f args).Relates World.Grows := by
  unfold invoke
  generalize Natives.hostNesting = room
  induction room generalizing f args with
  | zero => exact .stop _
  | succ room ih =>
    rw [Natives.invoke]
    have hcounted (results : List Value) : (if results.length ≠ f.sig.results.length then do
        HostTask.fail (α := PUnit) (.resultCount results.length f.sig.results.length)
        pure results else pure results : HostTask (List Value)).Relates World.Grows := by
      split
      · exact .bind (HostTask.frames_fail _) fun _ => .pure _
      · exact .pure _
    refine .bind (HostTask.frames_ofExcept _) fun _ => ?_
    dsimp only
    split
    · exact .bind (frames_callFresh hcall _ _) hcounted
    · rename_i i _
      refine ⟨fun w => ?_⟩
      cases hbody : m.natives.bodies[i]? with
      | none => exact .refl _
      | some body =>
        exact (Task.Relates.bind (hbodies body (Array.mem_of_getElem? hbody) _ ih args)
          hcounted).related w

theorem frames_callHost (f : FuncValue) (name : String) (args : List Value) :
    (m.callHost call f name args).Relates Thread.Grows :=
  .bind .get fun _ => .bind (frames_within (frames_onWorld
    (HostTask.frames_atDepth (frames_invoke hbodies hcall f args) _))) fun _ => frames_pushAll _

theorem frames_callValue (v : Value) (arity : Arity) :
    (m.callValue call v arity).Relates Thread.Grows := by
  unfold callValue
  split
  · exact frames_callClosure hcall _ _
  · split
    · exact frames_callClosure hcall _ _
    · exact .bind (frames_takeArgs ..) fun _ => frames_callHost hbodies hcall ..
  · exact frames_fail _
  · exact frames_fail _

theorem frames_callNative (addr : Nat) :
    (m.perform call ctx (.callNative addr)).Relates Thread.Grows := by
  unfold perform
  dsimp only
  split
  · exact frames_fail _
  · exact .bind (frames_takeArgs ..) fun _ => frames_callHost hbodies hcall ..

theorem frames_callNativev (field : ArityField) (addr : Nat) :
    (m.perform call ctx (.callNativev field addr)).Relates Thread.Grows := by
  unfold perform
  dsimp only
  split
  · exact frames_fail _
  · exact .bind (frames_readArity _) fun _ => .bind (frames_lastParam ..) fun _ =>
      .bind (frames_pack ..) fun _ => .bind (frames_popMany _) fun _ =>
        frames_callHost hbodies hcall ..

/-- No instruction loses a frame, if calls do not. -/
theorem frames_perform (i : Instr) : (m.perform call ctx i).Relates Thread.Grows := by
  cases i with
  | nop | ret _ | retVars => exact .pure _
  | pushInt k n =>
    cases k with
    | some k => exact frames_push _
    | none => exact frames_fail _
  | pop n => exact frames_drop n
  | loadVar scope index =>
    exact .bind (frames_frameOf ..) fun _ => .bind (frames_load _) fun _ => frames_push _
  | storeVar scope index =>
    exact .bind frames_pop fun _ => .bind (frames_frameOf ..) fun _ => frames_store ..
  | addrVar scope index =>
    exact .bind (frames_frameOf ..) fun _ => .bind (frames_varType ..) fun _ =>
      .bind (frames_allocate Store.Grows.number) fun _ => frames_push _
  | loadArg below =>
    exact .bind (frames_argumentHeight ..) fun _ => .bind .get fun _ =>
      .bind (frames_ofExcept _) fun _ => frames_push _
  | storeArg below =>
    exact .bind (frames_argumentHeight ..) fun _ => .bind frames_pop fun _ => .bind .get fun _ =>
      .bind (frames_ofExcept _) fun _ => frames_setStack _
  | convert k =>
    cases k with
    | some k => exact .bind frames_pop fun _ => .bind (frames_convert ..) fun _ => frames_push _
    | none => exact frames_fail _
  | callFunc index =>
    exact .bind (frames_tableEntry ..) fun _ => .bind (.ofChecked _) fun _ =>
      .bind (frames_parentOf _) fun _ => hcall _ _
  | callFuncv field index =>
    exact .bind (frames_tableEntry ..) fun _ => .bind (frames_readArity _) fun _ =>
      .bind (.ofChecked _) fun _ => .bind (frames_packScript ..) fun _ =>
        .bind (frames_parentOf _) fun _ => hcall _ _
  | closure variadic index | hostClosure variadic index =>
    exact .bind (frames_makeClosure ..) fun _ => frames_push _
  | callClosure arity =>
    refine .bind frames_pop fun v => ?_
    split
    · exact frames_callClosure hcall _ _
    · exact frames_fail _
  | callValue arity => exact .bind frames_pop fun _ => frames_callValue hbodies hcall ..
  | deref =>
    exact .bind frames_pop fun _ => .bind (frames_pointee _) fun _ => .bind (frames_load _) fun _ =>
      frames_push _
  | pushConst index => exact frames_pushConst index
  | pushNative addr => exact frames_pushNative addr
  | pushNativev addr => exact frames_pushNativev addr
  | loadNativeVar addr => exact frames_loadNativeVar addr
  | addrOp k op => exact frames_addrOp k op
  | builtinOp k op => exact frames_builtinOp k op
  | callNative addr => exact frames_callNative hbodies hcall addr
  | callNativev field addr => exact frames_callNativev hbodies hcall field addr
  | field index => exact frames_field index

/-! ### Bodies and calls -/

theorem frames_step (i : Instr) : (m.step call ctx i).Relates Thread.Grows := by
  unfold step
  split
  · exact .pure _
  · exact .pure _
  · exact .bind (frames_perform hbodies hcall _) fun _ => .pure _

theorem frames_exec (stop offset : Nat) : (m.exec call ctx stop offset).Relates Thread.Grows := by
  induction hn : stop - offset generalizing offset with
  | zero =>
    rw [exec, if_neg (by omega)]
    exact .pure _
  | succ n ih =>
    rw [exec, if_pos (by omega)]
    refine .bind frames_tick fun _ => .bind (.expect _) fun w => ?_
    split
    · exact frames_fail _
    · refine .bind (frames_step hbodies hcall _) fun going => ?_
      cases going with
      | next => exact ih (offset + 1) (by omega)
      | ret n => exact .pure _

theorem frames_enter (id parent : Nat) (f : FuncInfo) (entry stop : Nat) :
    (m.enter call id parent f entry stop).Relates Thread.Grows :=
  .bind frames_height fun _ => .bind (frames_openFrame ..) fun _ =>
    .bind (frames_within (frames_exec hbodies hcall ..)) fun _ => frames_finish ..

end

section

variable (hbodies : ∀ body ∈ m.natives.bodies, body.KeepsFrames)

include hbodies

/-- No call loses a frame, at whatever depth. -/
theorem frames_call (room id parent : Nat) : (m.call room id parent).Relates Thread.Grows := by
  induction room generalizing id parent with
  | zero =>
    unfold call
    refine .bind (.ofChecked _) fun f => ?_
    split
    · exact .bind (frames_descend _) fun _ => .stop _
    · exact frames_fail _
  | succ room ih =>
    unfold call
    refine .bind (.ofChecked _) fun f => ?_
    split
    · exact .bind (frames_descend _) fun _ => .bind (frames_enter hbodies ih ..) fun _ =>
        .modify fun s => .refl s.world.store
    · exact frames_fail _

theorem frames_invokeTop (f : FuncValue) (args : List Value) :
    (m.invokeTop f args).Relates World.Grows := frames_invoke hbodies (frames_call hbodies _) f args

/-- The frame of the main body is new, and like all that are there it stays. -/
theorem frames_run {w w' : World} {frame : Nat} (h : m.run.exec w = (.ok frame, w')) :
    frame = w.store.frames.size ∧ w.Grows w' ∧ (m.entered w).Grows w' := by
  have hentered : (m.entered w).Grows (m.run.exec w).2 := by
    rw [exec_run]
    exact (frames_exec hbodies (frames_call hbodies _) m.program.mainEnd 0).related
      ⟨m.entered w, #[], 0, 0⟩
  rw [h] at hentered
  rw [exec_run] at h
  refine ⟨?_, (Store.Grows.push _ _).trans hentered, hentered⟩
  generalize ((m.exec m.callTop w.store.frames.size m.program.mainEnd 0).exec _).1 = r at h
  obtain e | n := r
  · cases h
  · exact (Except.ok.inj (congrArg Prod.fst h)).symm

end

end Machine

end StackScript
