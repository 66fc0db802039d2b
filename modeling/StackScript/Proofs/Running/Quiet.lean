import StackScript.Machine.Exec
import StackScript.Proofs.Ensures

/-!
# What instructions leave alone

Only calls of script functions count steps and depth. All else that an instruction does is quiet: it
changes the values on the stack and in the store, and nothing that a limit is held against
(`Thread.Quiet`). Host functions publish a depth and take it back, so they are quiet too, whatever
they do. `Machine.ensures_perform`: what quiet changes keep, an instruction keeps if calls do.
-/

namespace StackScript

/-! ## Host tasks -/

/-- However the task ends, the published depth is what it was. -/
structure HostTask.KeepsDepth {α : Type} (t : HostTask α) : Prop where
  same : ∀ w, (t.exec w).2.store.hostDepth = w.store.hostDepth

namespace HostTask

variable {α β : Type}

theorem KeepsDepth.allocate {make : Store → α × Store}
    (h : ∀ s, (make s).2.hostDepth = s.hostDepth) : (allocate make).KeepsDepth :=
  ⟨fun w => h w.store⟩

theorem KeepsDepth.load (p : Place) : (load p).KeepsDepth :=
  ⟨fun w => by
    unfold HostTask.load
    rw [Task.exec_bind, Task.exec_get]
    dsimp only
    split <;> rfl⟩

theorem hostDepth_of_store? {s s' : Store} {v : Value} {p : Place} (h : s.store? v p = some s') :
    s'.hostDepth = s.hostDepth := by
  unfold Store.store? at h
  repeat' split at h
  all_goals first | cases h; rfl | cases h

theorem KeepsDepth.store (p : Place) (v : Value) : (store p v).KeepsDepth :=
  ⟨fun w => by
    unfold HostTask.store
    rw [Task.exec_bind, Task.exec_get]
    dsimp only
    split
    · exact hostDepth_of_store? ‹_›
    · rfl
    · rfl⟩

theorem exec_atDepth (depth : Nat) (t : HostTask α) (w : World) :
    (t.atDepth depth).exec w = ((t.exec (w.publishing depth)).1,
      (t.exec (w.publishing depth)).2.publishing w.store.hostDepth) := rfl

/-- What a task changes of the published depth while it runs is taken back. -/
theorem KeepsDepth.atDepth (depth : Nat) (t : HostTask α) : (t.atDepth depth).KeepsDepth :=
  ⟨fun _ => rfl⟩

end HostTask

/-! ## Threads -/

/-- The second thread came from the first one without a step or a call of its own. -/
structure Thread.Quiet (s s' : Thread) : Prop where
  steps : s'.steps = s.steps
  depth : s'.depth = s.depth
  hostDepth : s'.world.store.hostDepth = s.world.store.hostDepth

namespace Thread.Quiet

variable {s s' s'' : Thread}

theorem refl (s : Thread) : s.Quiet s := ⟨rfl, rfl, rfl⟩

theorem trans (h : s.Quiet s') (h' : s'.Quiet s'') : s.Quiet s'' :=
  ⟨h'.steps.trans h.steps, h'.depth.trans h.depth, h'.hostDepth.trans h.hostDepth⟩

end Thread.Quiet

/-- However the task ends, it changes a thread quietly. -/
structure Run.Quiet {α : Type} (t : Run α) : Prop where
  changes : ∀ s : Thread, s.Quiet (t.exec s).2

namespace Run

variable {α β : Type} {t : Run α}

theorem Quiet.ensures (h : t.Quiet) (s : Thread) :
    t.Ensures s (fun _ s' => s.Quiet s') fun _ s' => s.Quiet s' :=
  .of_exec (fun _ _ ht => by simpa only [ht] using h.changes s)
    fun _ _ ht => by simpa only [ht] using h.changes s

/-! ### Rules -/

theorem Quiet.pure (a : α) : Quiet (Pure.pure a : Run α) := ⟨Thread.Quiet.refl⟩

theorem Quiet.bind {f : α → Run β} (h : t.Quiet) (hf : ∀ a, (f a).Quiet) : (t >>= f).Quiet :=
  ⟨fun s => by
    have hs := h.changes s
    rw [Task.exec_bind]
    generalize t.exec s = r at hs
    obtain ⟨e | a, s'⟩ := r
    · exact hs
    · exact hs.trans ((hf a).changes s')⟩

theorem Quiet.map {f : α → β} (h : t.Quiet) : (f <$> t).Quiet :=
  ⟨fun s => by
    rw [Task.exec_map]
    exact h.changes s⟩

theorem Quiet.fail (c : Cause) : Quiet (Run.fail c : Run α) := ⟨Thread.Quiet.refl⟩

/-- What would follow a failure is not run. -/
theorem Quiet.failBind {c : Cause} {f : α → Run β} : (Run.fail c >>= f).Quiet :=
  ⟨Thread.Quiet.refl⟩

theorem Quiet.defect (d : Defect) : Quiet (Run.defect d : Run α) := ⟨Thread.Quiet.refl⟩

theorem Quiet.fault (f : Fault) : Quiet (Task.fault f : Run α) := ⟨Thread.Quiet.refl⟩

theorem Quiet.get : Quiet (MonadState.get : Run Thread) := ⟨Thread.Quiet.refl⟩

theorem Quiet.ofExcept (r : Except Cause α) : (Run.ofExcept r).Quiet :=
  ⟨fun s => by cases r <;> exact .refl s⟩

theorem Quiet.ofChecked (r : Except Fault α) : Quiet (Task.ofChecked r : Run α) :=
  ⟨fun s => by cases r <;> exact .refl s⟩

theorem Quiet.expect (r : Option α) : Quiet (Task.expect r : Run α) :=
  ⟨fun s => by cases r <;> exact .refl s⟩

theorem Quiet.onWorld {t : HostTask α} (h : t.KeepsDepth) : (Run.onWorld t).Quiet :=
  ⟨fun s => ⟨rfl, rfl, h.same s.world⟩⟩

theorem Quiet.within {name : String} (h : t.Quiet) : (t.within name).Quiet :=
  ⟨fun s => by
    have hs := h.changes s
    unfold Run.within
    rw [Task.exec_mapError]
    generalize t.exec s = r at hs
    obtain ⟨(e | x) | a, s'⟩ := r <;> exact hs⟩

/-! ### The stack -/

theorem Quiet.setStack (st : Stack) : (Run.setStack st).Quiet := ⟨fun _ => ⟨rfl, rfl, rfl⟩⟩

theorem Quiet.push (v : Value) : (Run.push v).Quiet := ⟨fun _ => ⟨rfl, rfl, rfl⟩⟩

theorem Quiet.pushAll (vs : List Value) : (Run.pushAll vs).Quiet := ⟨fun _ => ⟨rfl, rfl, rfl⟩⟩

theorem Quiet.height : Run.height.Quiet := Quiet.get.bind fun _ => .pure _

theorem Quiet.pop : Run.pop.Quiet :=
  Quiet.get.bind fun _ => (Quiet.ofExcept _).bind fun _ => (Quiet.setStack _).bind fun _ => .pure _

theorem Quiet.popMany (n : Nat) : (Run.popMany n).Quiet :=
  Quiet.get.bind fun _ => (Quiet.ofExcept _).bind fun _ => (Quiet.setStack _).bind fun _ => .pure _

theorem Quiet.drop (n : Nat) : (Run.drop n).Quiet := Quiet.get.bind fun s => by
  dsimp only
  split
  · exact .fail _
  · exact .setStack _

/-! ### Frames and places -/

theorem Quiet.frameOf (ctx : Nat) (scope : Scope) : (Run.frameOf ctx scope).Quiet := by
  cases scope with
  | global => exact Quiet.get.bind fun _ => .pure _
  | up n =>
    refine Quiet.get.bind fun s => ?_
    split
    · exact .pure _
    · exact .defect _

theorem Quiet.load (p : Place) : (Run.load p).Quiet := .onWorld (.load p)

theorem Quiet.store (p : Place) (v : Value) : (Run.store p v).Quiet := .onWorld (.store p v)

theorem Quiet.allocate {make : Store → α × Store}
    (h : ∀ s, (make s).2.hostDepth = s.hostDepth) : (Run.onWorld (HostTask.allocate make)).Quiet :=
  .onWorld (.allocate h)

theorem Quiet.pointee (v : Value) : (Run.pointee v).Quiet := by
  unfold Run.pointee
  split
  · exact .pure _
  · exact .fail _
  · exact .fail _

theorem Quiet.argumentHeight (ctx below : Nat) : (Run.argumentHeight ctx below).Quiet := by
  unfold Run.argumentHeight
  refine Quiet.get.bind fun _ => (Quiet.expect _).bind fun _ => ?_
  split
  · exact .defect _
  · exact .pure _

/-! ### Operators -/

theorem Quiet.evaluate (op : Operator) (k : Kind) (x y : Value) : (Run.evaluate op k x y).Quiet :=
  .ofExcept _

theorem Quiet.convert (v : Value) (k : Kind) : (Run.convert v k).Quiet := by
  unfold Run.convert
  split
  · exact .pure _
  · exact .fail _

theorem Quiet.updatePlace (op : Operator) (k : Kind) (p : Place) (y : Value) :
    (Run.updatePlace op k p y).Quiet :=
  (Quiet.load p).bind fun _ => (Quiet.evaluate ..).bind fun _ => .store ..

theorem Quiet.applyAddress (k : Kind) (op : AddressOperator) (p : Place) :
    (Run.applyAddress k op p).Quiet := by
  cases op with
  | load => exact (Quiet.load p).bind fun _ => .push _
  | store => exact Quiet.pop.bind fun _ => .store ..
  | increment => exact (Quiet.convert ..).bind fun _ => .updatePlace ..
  | decrement => exact (Quiet.convert ..).bind fun _ => .updatePlace ..
  | update op => exact Quiet.pop.bind fun _ => .updatePlace ..

/-! ### Arguments -/

theorem Quiet.readArity (field : ArityField) : (Run.readArity field).Quiet := by
  cases field with
  | spread => exact .pure _
  | count n => exact .pure _
  | overflow =>
    refine Quiet.pop.bind fun v => ?_
    split
    · split
      · exact .fail _
      · exact .pure _
    · exact .fail _

theorem Quiet.lastParam (params : List Ty) (numIn : Nat) (callee : String) :
    (Run.lastParam params numIn callee).Quiet := by
  unfold Run.lastParam
  split
  · exact .defect _
  · split
    · exact .pure _
    · exact .defect _

theorem Quiet.newSlice (elem : Ty) (items : List Value) :
    (Run.onWorld (HostTask.newSlice elem items)).Quiet := Quiet.allocate fun _ => rfl

theorem Quiet.pack (last : Ty) (fixed : Nat) (callee : String) (arity : Arity) :
    (Run.pack last fixed callee arity).Quiet := by
  unfold Run.pack
  dsimp only
  cases arity with
  | spread =>
    refine Quiet.pop.bind fun v => ?_
    split
    · exact (Quiet.newSlice ..).bind fun _ => .push _
    · exact .push _
    · exact .fail _
  | count n =>
    dsimp only
    split
    · exact .failBind
    · refine (Quiet.popMany _).bind fun items => ?_
      split
      · exact .fail _
      · exact (Quiet.newSlice ..).bind fun _ => .push _

theorem Quiet.checkCount (callee : String) (numIn : Nat) (arity : Arity) :
    (Run.checkCount callee numIn arity).Quiet := by
  unfold Run.checkCount
  split
  · split
    · exact .pure _
    · exact .fail _
  · exact .fail _

theorem Quiet.takeArgs (sig : Signature) (callee : String) (arity : Arity) :
    (Run.takeArgs sig callee arity).Quiet := by
  unfold Run.takeArgs
  split
  · exact (Quiet.lastParam ..).bind fun _ => (Quiet.pack ..).bind fun _ => .popMany _
  · exact (Quiet.checkCount ..).bind fun _ => .popMany _

end Run

/-! ## Instructions -/

namespace Machine

variable {m : Machine} {call : Caller} {ctx : Nat}

open Run

theorem quiet_parentOf (f : FuncInfo) : (parentOf f ctx).Quiet := by
  unfold parentOf
  split
  · exact Quiet.get.bind fun _ => .pure _
  · exact .pure _

theorem quiet_varType (frame index : Nat) : (m.varType frame index).Quiet := by
  unfold varType
  refine Quiet.get.bind fun _ => (Quiet.expect _).bind fun f => ?_
  dsimp only
  split
  · refine (Quiet.ofChecked _).bind fun _ => (Quiet.pure _).bind fun _ => ?_
    split
    · exact (Quiet.ofChecked _).bind fun _ => .pure _
    · exact .defect _
  · refine (Quiet.pure _).bind fun _ => ?_
    split
    · exact (Quiet.ofChecked _).bind fun _ => .pure _
    · exact .defect _

theorem quiet_tableEntry (variadic : Bool) (index : Nat) : (m.tableEntry variadic index).Quiet := by
  unfold tableEntry
  split
  · exact .defect _
  · exact .pure _

theorem quiet_makeClosure (variadic : Bool) (index : Nat) :
    (m.makeClosure ctx variadic index).Quiet := by
  unfold makeClosure
  split
  · exact .defect _
  · exact (Quiet.ofChecked _).bind fun _ => (quiet_parentOf _).bind fun _ =>
      (Quiet.ofChecked _).bind fun _ => (Quiet.allocate fun _ => rfl).bind fun _ => .pure _

theorem quiet_packScript (f : FuncInfo) (arity : Arity) : (packScript f arity).Quiet :=
  (Quiet.lastParam ..).bind fun _ => .pack ..

/-- A host function works at the depth that is published for it, and leaves none behind. -/
theorem quiet_callHost (f : FuncValue) (name : String) (args : List Value) :
    (m.callHost call f name args).Quiet :=
  Quiet.get.bind fun _ => (Quiet.within (.onWorld (.atDepth _ _))).bind fun _ => .pushAll _

theorem quiet_openFrame (id parent : Nat) (f : FuncInfo) : (m.openFrame id parent f).Quiet := by
  unfold openFrame
  refine Quiet.height.bind fun _ => ?_
  split
  · exact .failBind
  · exact (Quiet.expect _).bind fun _ => Quiet.allocate fun _ => rfl

theorem quiet_finish (height numOut frame : Nat) (n : Option Nat) :
    (finish height numOut frame n).Quiet := by
  cases n with
  | some n => exact Quiet.get.bind fun _ => (Quiet.ofExcept _).bind fun _ => .setStack _
  | none => exact Quiet.get.bind fun _ => (Quiet.expect _).bind fun _ => .setStack _

/-! ### Instructions that call no function of the program -/

section

variable {addr : Nat}

theorem quiet_pushConst (index : Nat) : (m.perform call ctx (.pushConst index)).Quiet := by
  unfold perform
  dsimp only
  split
  · exact .push _
  · exact .defect _

theorem quiet_addrOp (k : Option Kind) (op : Option AddressOperator) :
    (m.perform call ctx (.addrOp k op)).Quiet := by
  unfold perform
  dsimp only
  split
  · exact Quiet.pop.bind fun _ => (Quiet.pointee _).bind fun _ => .applyAddress ..
  · exact .defect _

theorem quiet_loadNativeVar : (m.perform call ctx (.loadNativeVar addr)).Quiet := by
  unfold perform
  dsimp only
  split
  · exact (Quiet.load _).bind fun _ => .push _
  · exact .defect _

theorem quiet_builtinOp (k : Option Kind) (op : Option Operator) :
    (m.perform call ctx (.builtinOp k op)).Quiet := by
  unfold perform
  dsimp only
  split
  · exact Quiet.pop.bind fun _ => Quiet.pop.bind fun _ => (Quiet.evaluate ..).bind fun _ => .push _
  · exact .defect _

theorem quiet_callNative : (m.perform call ctx (.callNative addr)).Quiet := by
  unfold perform
  dsimp only
  split
  · exact .defect _
  · exact (Quiet.takeArgs ..).bind fun _ => quiet_callHost ..

theorem quiet_callNativev (field : ArityField) : (m.perform call ctx (.callNativev field addr)).Quiet := by
  unfold perform
  dsimp only
  split
  · exact .defect _
  · exact (Quiet.readArity _).bind fun _ => (Quiet.lastParam ..).bind fun _ =>
      (Quiet.pack ..).bind fun _ => (Quiet.popMany _).bind fun _ => quiet_callHost ..

theorem quiet_pushNative : (m.perform call ctx (.pushNative addr)).Quiet := by
  unfold perform
  dsimp only
  split
  · exact .defect _
  · exact .push _

theorem quiet_pushNativev : (m.perform call ctx (.pushNativev addr)).Quiet := by
  unfold perform
  dsimp only
  split
  · exact .defect _
  · exact .push _

theorem quiet_field (index : Nat) : (m.perform call ctx (.field index)).Quiet := by
  refine Quiet.pop.bind fun v => ?_
  split
  · split
    · exact .push _
    · exact .defect _
  · exact .fail _

end

/-! ### What calls keep -/

/-- Quiet changes keep `I`, of which `E` is left where a thread stops. -/
structure Steady (I E : Thread → Prop) : Prop where
  quiet : ∀ s s', s.Quiet s' → I s → I s'
  stop : ∀ s, I s → E s

variable {I E : Thread → Prop} {s : Thread}

theorem Steady.ensures {α : Type} {t : Run α} (hI : Steady I E) (h : t.Quiet) (hs : I s) :
    t.Ensures s (fun _ => I) fun _ => E :=
  (h.ensures s).mono (fun _ _ hq => hI.quiet _ _ hq hs) fun _ _ hq => hI.stop _ (hI.quiet _ _ hq hs)

/-- Calls keep `I`, or stop in `E`. -/
def Keeps (call : Caller) (I E : Thread → Prop) : Prop :=
  ∀ id parent s, I s → (call id parent).Ensures s (fun _ => I) fun _ => E

theorem ensures_callClosure (hI : Steady I E) (hcall : Keeps call I E) (hs : I s) (c : Closure)
    (arity : Arity) : (m.callClosure call c arity).Ensures s (fun _ => I) fun _ => E := by
  unfold callClosure
  refine (hI.ensures (Quiet.ofChecked _) hs).bind fun f s₁ hs₁ => ?_
  split
  · exact (hI.ensures (quiet_packScript ..) hs₁).bind fun _ s₂ hs₂ => hcall _ _ s₂ hs₂
  · exact (hI.ensures (Quiet.checkCount ..) hs₁).bind fun _ s₂ hs₂ => hcall _ _ s₂ hs₂

theorem ensures_callValue (hI : Steady I E) (hcall : Keeps call I E) (hs : I s) (v : Value)
    (arity : Arity) : (m.callValue call v arity).Ensures s (fun _ => I) fun _ => E := by
  unfold callValue
  split
  · exact ensures_callClosure hI hcall hs _ _
  · split
    · exact ensures_callClosure hI hcall hs _ _
    · exact hI.ensures ((Quiet.takeArgs ..).bind fun _ => quiet_callHost ..) hs
  · exact hI.ensures (.fail _) hs
  · exact hI.ensures (.fail _) hs

theorem ensures_callFunc (hI : Steady I E) (hcall : Keeps call I E) (hs : I s) (index : Nat) :
    (m.perform call ctx (.callFunc index)).Ensures s (fun _ => I) fun _ => E := by
  refine (hI.ensures (quiet_tableEntry ..) hs).bind fun id s₁ hs₁ => ?_
  refine (hI.ensures (.ofChecked _) hs₁).bind fun f s₂ hs₂ => ?_
  exact (hI.ensures (quiet_parentOf _) hs₂).bind fun _ s₃ hs₃ => hcall _ _ s₃ hs₃

theorem ensures_callFuncv (hI : Steady I E) (hcall : Keeps call I E) (hs : I s) (field : ArityField)
    (index : Nat) : (m.perform call ctx (.callFuncv field index)).Ensures s (fun _ => I) fun _ => E := by
  refine (hI.ensures (quiet_tableEntry ..) hs).bind fun id s₁ hs₁ => ?_
  refine (hI.ensures (.readArity _) hs₁).bind fun arity s₂ hs₂ => ?_
  refine (hI.ensures (.ofChecked _) hs₂).bind fun f s₃ hs₃ => ?_
  refine (hI.ensures (quiet_packScript ..) hs₃).bind fun _ s₄ hs₄ => ?_
  exact (hI.ensures (quiet_parentOf _) hs₄).bind fun _ s₅ hs₅ => hcall _ _ s₅ hs₅

/-- What quiet changes keep, an instruction keeps if calls do. -/
theorem ensures_perform (hI : Steady I E) (hcall : Keeps call I E) (hs : I s) (i : Instr) :
    (m.perform call ctx i).Ensures s (fun _ => I) fun _ => E := by
  cases i with
  | callFunc index => exact ensures_callFunc hI hcall hs index
  | callFuncv field index => exact ensures_callFuncv hI hcall hs field index
  | callClosure arity =>
    refine (hI.ensures .pop hs).bind fun v s₁ hs₁ => ?_
    split
    · exact ensures_callClosure hI hcall hs₁ _ _
    · exact hI.ensures (.fail _) hs₁
  | callValue arity =>
    exact (hI.ensures .pop hs).bind fun v s₁ hs₁ => ensures_callValue hI hcall hs₁ _ _
  | callNative addr => exact hI.ensures quiet_callNative hs
  | callNativev field addr => exact hI.ensures (quiet_callNativev field) hs
  | nop | ret _ | retVars => exact hs
  | pushInt k n =>
    cases k with
    | some k => exact hI.ensures (.push _) hs
    | none => exact hI.ensures (.defect _) hs
  | pushConst index => exact hI.ensures (quiet_pushConst index) hs
  | pop n => exact hI.ensures (.drop n) hs
  | loadVar scope index =>
    exact hI.ensures ((Quiet.frameOf ..).bind fun _ => (Quiet.load _).bind fun _ => .push _) hs
  | storeVar scope index =>
    exact hI.ensures (Quiet.pop.bind fun _ => (Quiet.frameOf ..).bind fun _ => .store ..) hs
  | addrVar scope index =>
    exact hI.ensures ((Quiet.frameOf ..).bind fun _ => (quiet_varType ..).bind fun _ =>
      (Quiet.allocate fun _ => rfl).bind fun _ => .push _) hs
  | addrOp k op => exact hI.ensures (quiet_addrOp k op) hs
  | loadArg below =>
    exact hI.ensures ((Quiet.argumentHeight ..).bind fun _ => Quiet.get.bind fun _ =>
      (Quiet.ofExcept _).bind fun _ => .push _) hs
  | storeArg below =>
    exact hI.ensures ((Quiet.argumentHeight ..).bind fun _ => Quiet.pop.bind fun _ =>
      Quiet.get.bind fun _ => (Quiet.ofExcept _).bind fun _ => .setStack _) hs
  | loadNativeVar addr => exact hI.ensures quiet_loadNativeVar hs
  | builtinOp k op => exact hI.ensures (quiet_builtinOp k op) hs
  | convert k =>
    cases k with
    | some k => exact hI.ensures (Quiet.pop.bind fun _ => (Quiet.convert ..).bind fun _ => .push _) hs
    | none => exact hI.ensures (.defect _) hs
  | pushNative addr => exact hI.ensures quiet_pushNative hs
  | pushNativev addr => exact hI.ensures quiet_pushNativev hs
  | closure variadic index | hostClosure variadic index =>
    exact hI.ensures ((quiet_makeClosure ..).bind fun _ => .push _) hs
  | deref =>
    exact hI.ensures (Quiet.pop.bind fun _ => (Quiet.pointee _).bind fun _ =>
      (Quiet.load _).bind fun _ => .push _) hs
  | field index => exact hI.ensures (quiet_field index) hs

end Machine

end StackScript
