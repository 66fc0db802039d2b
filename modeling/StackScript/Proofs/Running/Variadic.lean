import Mathlib.Data.List.Forall2
import StackScript.Machine.Exec
import StackScript.Proofs.Ensures
import StackScript.Proofs.Translation.Code
import StackScript.Proofs.Typing.Identity

/-!
# Variadic calls

Four instructions call functions of a variable number of arguments, and each learns in its own way
how many there are (`Machine.Route`). Whichever it is, the function starts on the same arguments:
those for its first parameters, and one slice of all others (`Machine.exec_route`).
-/

namespace StackScript

/-! ## Arguments on the stack -/

/-- What the slice of the trailing arguments is made of. -/
theorem Ty.getD_elem? {last elem : Ty} (h : last.elem? = some elem) : last.elem?.getD .any = elem := by
  rw [h, Option.getD_some]

theorem Ty.getD_elem?_of_slice {last elem : Ty} (h : last.underlying = .slice elem) :
    last.elem?.getD .any = elem := Ty.getD_elem? (by rw [Ty.elem?, h])

namespace Thread

/-- The thread with further values on its stack. -/
def above (s : Thread) (vs : List Value) : Thread := { s with stack := s.stack ++ vs.toArray }

/-- The thread after something new was numbered in its store. -/
def numbered (s : Thread) : Thread :=
  { s with world := { s.world with store := s.world.store.number.2 } }

variable {s : Thread} {vs ws : List Value} {v : Value}

@[simp] theorem above_nil : s.above [] = s := by simp [above]

@[simp] theorem above_above : (s.above vs).above ws = s.above (vs ++ ws) := by simp [above]

theorem numbered_above : (s.above vs).numbered = s.numbered.above vs := rfl

@[simp] theorem above_world : (s.above vs).world = s.world := rfl

end Thread

namespace Run

variable {s : Thread} {vs : List Value} {v : Value}

theorem exec_push : (push v).exec s = (.ok (), s.above [v]) := by
  unfold push Thread.above
  rw [Task.exec_modify]
  simp

theorem exec_pushAll : (pushAll vs).exec s = (.ok (), s.above vs) := by
  have happend : s.stack ++ vs = s.stack ++ vs.toArray := Array.ext' (by simp)
  unfold pushAll Thread.above
  rw [Task.exec_modify, happend]

theorem exec_pop : pop.exec (s.above [v]) = (.ok v, s) := by
  have hpop : (s.above [v]).stack.pop? = .ok (v, s.stack) := by simp [Thread.above, Stack.pop?]
  unfold pop
  rw [Task.exec_bind, Task.exec_get]
  dsimp only
  rw [hpop]
  rfl

/-- The top values come off together. -/
theorem exec_popMany : (popMany vs.length).exec (s.above vs) = (.ok vs, s) := by
  have hpop : (s.above vs).stack.popMany? vs.length = .ok (vs, s.stack) := by
    unfold Stack.popMany? Thread.above
    simp [Array.extract_append]
  unfold popMany
  rw [Task.exec_bind, Task.exec_get]
  dsimp only
  rw [hpop]
  rfl

theorem exec_newSlice {elem : Ty} {items : List Value} :
    (onWorld (HostTask.newSlice elem items)).exec s =
      (.ok (.slice s.world.store.fresh elem items), s.numbered) := rfl

/-! ## Packing -/

variable {last elem : Ty} {fixed : Nat} {callee : String}

/-- The trailing arguments become one slice. -/
theorem exec_pack_count (helem : last.elem?.getD .any = elem) (hfixed : fixed ≤ vs.length)
    (hfit : ∀ v ∈ vs.drop fixed, v.fits elem = true) :
    (pack last fixed callee (.count vs.length)).exec (s.above vs) =
      (.ok (), s.numbered.above
        (vs.take fixed ++ [.slice s.world.store.fresh elem (vs.drop fixed)])) := by
  have hlength : vs.length - fixed = (vs.drop fixed).length := by simp
  have hsplit : s.above vs = (s.above (vs.take fixed)).above (vs.drop fixed) := by simp
  have hnone : (vs.drop fixed).find? (fun v => !v.fits elem) = none := by
    rw [List.find?_eq_none]
    intro v hv
    simp [hfit v hv]
  unfold pack
  simp only [helem]
  rw [if_neg (by omega), hlength, hsplit]
  rw [Task.exec_bind_ok exec_popMany, hnone]
  simp only
  rw [Task.exec_bind_ok exec_newSlice, exec_push, Thread.numbered_above, Thread.above_above,
    Thread.above_world]

theorem exec_pack_few (h : vs.length < fixed) :
    (pack last fixed callee (.count vs.length)).exec s =
      (.error (.error (.of (.arity callee fixed vs.length))), s) := by
  unfold pack
  simp only
  rw [if_pos h]
  rfl

/-- A trailing argument of another type is refused. -/
theorem exec_pack_misfit (helem : last.elem?.getD .any = elem) (hfixed : fixed ≤ vs.length)
    {bad : Value} (hbad : (vs.drop fixed).find? (fun v => !v.fits elem) = some bad) :
    (pack last fixed callee (.count vs.length)).exec (s.above vs) =
      (.error (.error (.of (.typeMismatch (.type elem) bad.type))), s.above (vs.take fixed)) := by
  have hlength : vs.length - fixed = (vs.drop fixed).length := by simp
  have hsplit : s.above vs = (s.above (vs.take fixed)).above (vs.drop fixed) := by simp
  unfold pack
  simp only [helem]
  rw [if_neg (by omega), hlength, hsplit]
  rw [Task.exec_bind_ok exec_popMany, hbad]
  rfl

theorem exec_pack_slice {id : Nat} {t : Ty} {items : List Value} :
    (pack last fixed callee .spread).exec (s.above (vs ++ [.slice id t items])) =
      (.ok (), s.above (vs ++ [.slice id t items])) := by
  unfold pack
  simp only
  rw [← Thread.above_above, Task.exec_bind_ok exec_pop]
  exact exec_push

theorem exec_pack_nil (helem : last.elem?.getD .any = elem) :
    (pack last fixed callee .spread).exec (s.above (vs ++ [.nil])) =
      (.ok (), s.numbered.above (vs ++ [.slice s.world.store.fresh elem []])) := by
  unfold pack
  simp only [helem]
  rw [← Thread.above_above, Task.exec_bind_ok exec_pop]
  simp only
  rw [Task.exec_bind_ok exec_newSlice, exec_push, Thread.numbered_above, Thread.above_above,
    Thread.above_world]

theorem lastParam_append {fixed : List Ty} :
    lastParam (fixed ++ [last]) (fixed ++ [last]).length callee = pure (last, fixed.length) := by
  simp [lastParam]

theorem takeArgs_eq {sig : Signature} {arity : Arity} {fixed : List Ty}
    (hvariadic : sig.variadic = true) (hparams : sig.params = fixed ++ [last]) :
    takeArgs sig callee arity =
      (do pack last fixed.length callee arity; popMany sig.params.length) := by
  unfold takeArgs
  rw [if_pos hvariadic, hparams, lastParam_append]
  rfl

/-! ## Argument counts -/

theorem exec_readArity_overflow {n : Nat} (hn : v.scalar?.bind Scalar.signed? = some (n : Int)) :
    (readArity .overflow).exec (s.above [v]) = (.ok (.count (Word.overflowArity + n)), s) := by
  unfold readArity
  simp only
  rw [Task.exec_bind_ok exec_pop, hn]
  simp only
  rw [if_neg (by omega)]
  rfl

end Run

/-! ## Checking arguments -/

/-- As many values as types, each of which fits. -/
abbrev Value.FitAll (vs : List Value) (ts : List Ty) : Prop :=
  List.Forall₂ (fun v t => v.fits t = true) vs ts

/-- A host function takes arguments of which each fits its parameter. -/
theorem Natives.checkArgs_eq_ok_iff {sig : Signature} {args : List Value} :
    checkArgs sig args = .ok () ↔ Value.FitAll args sig.params := by
  rw [Value.FitAll, List.forall₂_iff_zip]
  unfold checkArgs
  constructor
  · intro h
    split at h
    · cases h
    case isFalse hlength =>
      split at h
      · cases h
      case h_2 hnone =>
        exact ⟨not_not.1 hlength, fun hp => by simpa using List.find?_eq_none.1 hnone _ hp⟩
  · rintro ⟨hlength, hfits⟩
    rw [if_neg (not_not.2 hlength), List.find?_eq_none.2 fun p hp => by simp [hfits hp]]

theorem Natives.exists_checkArgs_eq_error {sig : Signature} {args : List Value}
    (hlength : args.length = sig.params.length) (h : ¬Value.FitAll args sig.params) :
    ∃ (t : Ty) (v : Value), checkArgs sig args = .error (.typeMismatch (.type t) v.type) := by
  cases hcheck : checkArgs sig args with
  | ok => exact absurd (checkArgs_eq_ok_iff.1 hcheck) h
  | error c =>
    unfold checkArgs at hcheck
    rw [if_neg (not_not.2 hlength)] at hcheck
    split at hcheck <;> cases hcheck
    exact ⟨_, _, rfl⟩

/-! ## Ways to call -/

/-- A variadic function that can be called: the name that errors give it, its parameters, and what
runs it on its arguments. -/
structure VariadicFunc where
  name : String
  params : List Ty
  start : List Value → Run Unit

namespace VariadicFunc

/-- A function of the script, in the frame that `parent` finds. -/
def script (call : Caller) (f : FuncInfo) (id : Nat) (parent : Run Nat) : VariadicFunc where
  name := f.name
  params := f.params
  start args := do
    Run.pushAll args
    call id (← parent)

def host (m : Machine) (call : Caller) (f : FuncValue) (name : String) : VariadicFunc where
  name := name
  params := f.sig.params
  start := m.callHost call f name

end VariadicFunc

namespace Machine

variable (m : Machine) (call : Caller) (ctx : Nat)

/-- Instructions one after another, their steps not counted. -/
def carryOut (is : List Instr) : Run Unit := is.forM (m.perform call ctx)

/-- The ways to call a variadic function: the code of the call, and the values that lie above the
arguments when it begins. -/
inductive Route (arity : Arity) : List Instr → List Value → VariadicFunc → Prop
  | func {id place : Nat} {is : List Instr} {field : ArityField} {f : FuncInfo}
    (hat : m.program.At id true place) (hf : m.program.funcs[id]? = some f)
    (harity : ArityCode m.program arity is field) :
    Route arity (is ++ [.callFuncv field place]) [] (.script call f id (parentOf f ctx))
  | native {addr : Nat} {is : List Instr} {field : ArityField} {entry : NativeFunc}
    (hentry : m.natives.funcvs[addr]? = some entry)
    (harity : ArityCode m.program arity is field) :
    Route arity (is ++ [.callNativev field addr]) [] (.host m call entry.func entry.name)
  | closure {c : Closure} {f : FuncInfo} (hf : m.program.funcs[c.func]? = some f)
    (hvariadic : f.isVariadic = true) :
    Route arity [.callClosure (.ofOperand (Assembly.dynamicOperand arity))] [.closure c]
      (.script call f c.func (pure c.parent))
  | value {c : Closure} {f : FuncInfo} (hf : m.program.funcs[c.func]? = some f)
    (hvariadic : f.isVariadic = true) :
    Route arity [.callValue (.ofOperand (Assembly.dynamicOperand arity))] [.closure c]
      (.script call f c.func (pure c.parent))
  | scriptValue {sig : Signature} {c : Closure} {f : FuncInfo}
    (hf : m.program.funcs[c.func]? = some f) (hvariadic : f.isVariadic = true) :
    Route arity [.callValue (.ofOperand (Assembly.dynamicOperand arity))]
      [.func ⟨sig, .script c⟩] (.script call f c.func (pure c.parent))
  | hostValue {sig : Signature} {index : Nat} (hvariadic : sig.variadic = true) :
    Route arity [.callValue (.ofOperand (Assembly.dynamicOperand arity))]
      [.func ⟨sig, .host index⟩] (.host m call ⟨sig, .host index⟩ "func value")

/-- The argument count is one that an instruction can hold. -/
def Countable (arity : Arity) : Prop := ∀ n, arity = .count n → n < Word.spreadCall

variable {m call ctx} {arity : Arity} {s : Thread}

theorem carryOut_append {is js : List Instr} :
    m.carryOut call ctx (is ++ js) = (do m.carryOut call ctx is; m.carryOut call ctx js) := by
  induction is with
  | nil => rfl
  | cons i is ih =>
    show (m.perform call ctx i >>= fun _ => m.carryOut call ctx (is ++ js)) =
      ((m.perform call ctx i >>= fun _ => m.carryOut call ctx is) >>= _)
    rw [ih, bind_assoc]

theorem carryOut_singleton {i : Instr} : m.carryOut call ctx [i] = m.perform call ctx i :=
  bind_pure _

theorem exec_pushed {i : Instr} {v : Value} (h : i.pushed? m.program.consts = some v) :
    (m.perform call ctx i).exec s = (.ok (), s.above [v]) := by
  cases i with
  | pushInt k n =>
    cases k with
    | none => cases h
    | some k =>
      cases h
      exact Run.exec_push
  | pushConst index =>
    have h : m.program.consts[index]? = some v := h
    unfold perform
    simp only [h]
    exact Run.exec_push
  | _ => cases h

/-- What counts as equal to an integer of kind `int` has its value. -/
theorem signed_of_equal {n : Nat} {v : Value} (hn : n < 1 <<< 63)
    (h : v = .int n ∨ v.equal (.int n) = true) :
    v.scalar?.bind Scalar.signed? = some (n : Int) := by
  have hlt : n < 9223372036854775808 := hn
  have hint : (IntKind.int).toInt (BitVec.ofInt 64 n) = n := by
    show (BitVec.ofInt 64 n).toInt = n
    rw [BitVec.toInt_ofInt, Int.bmod_eq_of_le (by omega) (by omega)]
  obtain rfl | h := h
  · show some ((IntKind.int).toInt (BitVec.ofInt 64 n)) = _
    rw [hint]
  · cases v with
    | scalar x =>
      cases x with
      | int k m =>
        have h : (k == .int && k.toInt m == (IntKind.int).toInt (BitVec.ofInt 64 n)) = true := h
        rw [Bool.and_eq_true] at h
        obtain rfl := eq_of_beq h.1
        show some ((IntKind.int).toInt m) = _
        rw [eq_of_beq h.2, hint]
      | float p | complex p => cases p <;> cases h
      | _ => cases h
    | _ => cases h

/-- A pooled integer is the integer that was pooled. -/
theorem signed_of_alike {n : Nat} {v : Value} (hn : n < 1 <<< 63) (h : (Value.int n).Alike v) :
    v.scalar?.bind Scalar.signed? = some (n : Int) :=
  signed_of_equal hn h.2

/-- What is pushed ahead of a call is what the call reads its argument count from. -/
theorem exec_arityCode (call : Caller) (ctx : Nat) {is : List Instr} {field : ArityField}
    (h : ArityCode m.program arity is field) (hn : Countable arity) :
    ∃ top, (∀ s, (m.carryOut call ctx is).exec s = (.ok (), s.above top)) ∧
      ∀ s, (Run.readArity field).exec (s.above top) = (.ok arity, s) := by
  have hlimit : Word.spreadCall < 1 <<< 32 := by decide
  cases h with
  | spread => exact ⟨[], fun s => by rw [Thread.above_nil]; rfl, fun s => by rw [Thread.above_nil]; rfl⟩
  | count h =>
    rename_i n
    have hnarrow : Assembly.narrow n = n := Nat.mod_eq_of_lt (by have := hn n rfl; omega)
    rw [hnarrow]
    exact ⟨[], fun s => by rw [Thread.above_nil]; rfl, fun s => by rw [Thread.above_nil]; rfl⟩
  | overflow h hpush hv =>
    rename_i n i v
    have hlt := hn n rfl
    have hnarrow : Assembly.narrow n = n := Nat.mod_eq_of_lt (by omega)
    rw [hnarrow] at h hv
    have hsigned : v.scalar?.bind Scalar.signed? = some ((n - Word.overflowArity : Nat) : Int) :=
      signed_of_alike (by omega)
        (by rwa [show ((n - Word.overflowArity : Nat) : Int) = n - Word.overflowArity by omega])
    refine ⟨[v], fun s => by rw [carryOut_singleton, exec_pushed hpush], fun s => ?_⟩
    rw [Run.exec_readArity_overflow hsigned, Nat.add_sub_cancel' h]

theorem ofOperand_dynamicOperand (h : Countable arity) :
    Arity.ofOperand (Assembly.dynamicOperand arity) = arity := by
  cases arity with
  | spread => rfl
  | count n =>
    have hn := h n rfl
    have hnarrow : Assembly.narrow n = n := Nat.mod_eq_of_lt (by
      have : Word.spreadCall < 1 <<< 32 := by decide
      omega)
    rw [Assembly.dynamicOperand, hnarrow, Arity.ofOperand, if_neg (by omega)]

/-! ## What all ways have in common -/

variable {code : List Instr} {top : List Value} {t : VariadicFunc} {fixed : List Ty} {last : Ty}

theorem exec_tableEntry {id place : Nat} {variadic : Bool} (h : m.program.At id variadic place) :
    (m.tableEntry variadic place).exec s = (.ok id, s) := by
  unfold tableEntry
  rw [h.entry]
  rfl

theorem packScript_eq {f : FuncInfo} (hparams : f.params = fixed ++ [last]) :
    packScript f arity = Run.pack last fixed.length f.name arity := by
  unfold packScript FuncInfo.numIn
  rw [hparams, Run.lastParam_append, pure_bind]

theorem callClosure_eq {c : Closure} {f : FuncInfo} (hf : m.program.funcs[c.func]? = some f)
    (hvariadic : f.isVariadic = true) (hparams : f.params = fixed ++ [last]) :
    m.callClosure call c arity =
      (do Run.pack last fixed.length f.name arity; call c.func c.parent) := by
  have hfunc : m.program.func c.func = .ok f := by rw [Program.func, hf]
  unfold callClosure
  simp only [hfunc, Task.ofChecked, pure_bind, hvariadic, if_true, packScript_eq hparams]

theorem exec_start_script {f : FuncInfo} {id : Nat} {parent : Run Nat} {args : List Value} :
    ((VariadicFunc.script call f id parent).start args).exec s =
      (do call id (← parent) : Run Unit).exec (s.above args) :=
  Task.exec_bind_ok Run.exec_pushAll

theorem exec_start_closure {f : FuncInfo} {c : Closure} {args : List Value} :
    (call c.func c.parent).exec (s.above args) =
      ((VariadicFunc.script call f c.func (pure c.parent)).start args).exec s := by
  rw [exec_start_script, pure_bind]

theorem exec_start_host {f : FuncValue} {name : String} {n : Nat} {args : List Value}
    (hargs : args.length = n) :
    (do m.callHost call f name (← Run.popMany n) : Run Unit).exec (s.above args) =
      ((VariadicFunc.host m call f name).start args).exec s := by
  subst hargs
  exact Task.exec_bind_ok Run.exec_popMany

/-- A call packs its trailing arguments and starts the function on what is then on the stack. -/
theorem exec_route (h : m.Route call ctx arity code top t) (hparams : t.params = fixed ++ [last])
    (hn : Countable arity) : ∃ enter : Run Unit,
      (∀ s args, args.length = t.params.length →
        enter.exec (s.above args) = (t.start args).exec s) ∧
      ∀ s, (m.carryOut call ctx code).exec (s.above top) =
        (do Run.pack last fixed.length t.name arity; enter : Run Unit).exec s := by
  cases h with
  | @func id place is field f hat hf harity =>
    have hparams : f.params = fixed ++ [last] := hparams
    have hfunc : m.program.func id = .ok f := by rw [Program.func, hf]
    obtain ⟨top, his, hread⟩ := exec_arityCode call ctx harity hn
    refine ⟨do call id (← parentOf f ctx), fun s args _ => exec_start_script.symm, fun s => ?_⟩
    have hcall : (m.perform call ctx (.callFuncv field place)).exec (s.above top) =
        (do packScript f arity; call id (← parentOf f ctx) : Run Unit).exec s := by
      unfold perform
      dsimp only
      rw [Task.exec_bind_ok (exec_tableEntry hat), Task.exec_bind_ok (hread s), hfunc]
      rfl
    rw [carryOut_append, Thread.above_nil, Task.exec_bind_ok (his s), carryOut_singleton, hcall,
      packScript_eq hparams]
    rfl
  | @native addr is field entry hentry harity =>
    have hparams : entry.func.sig.params = fixed ++ [last] := hparams
    obtain ⟨top, his, hread⟩ := exec_arityCode call ctx harity hn
    refine ⟨do m.callHost call entry.func entry.name (← Run.popMany entry.func.sig.params.length),
      fun s args hargs => exec_start_host hargs, fun s => ?_⟩
    rw [carryOut_append, Thread.above_nil, Task.exec_bind_ok (his s), carryOut_singleton]
    unfold perform
    dsimp only
    rw [hentry]
    dsimp only
    rw [Task.exec_bind_ok (hread s), hparams, Run.lastParam_append, pure_bind]
    rfl
  | @closure c f hf hvariadic =>
    refine ⟨call c.func c.parent, fun s args _ => exec_start_closure, fun s => ?_⟩
    rw [carryOut_singleton, ofOperand_dynamicOperand hn]
    unfold perform
    dsimp only
    rw [Task.exec_bind_ok Run.exec_pop]
    dsimp only
    rw [callClosure_eq hf hvariadic hparams]
    rfl
  | @value c f hf hvariadic =>
    refine ⟨call c.func c.parent, fun s args _ => exec_start_closure, fun s => ?_⟩
    rw [carryOut_singleton, ofOperand_dynamicOperand hn]
    unfold perform
    dsimp only
    rw [Task.exec_bind_ok Run.exec_pop, callValue, callClosure_eq hf hvariadic hparams]
    rfl
  | @scriptValue sig c f hf hvariadic =>
    refine ⟨call c.func c.parent, fun s args _ => exec_start_closure, fun s => ?_⟩
    rw [carryOut_singleton, ofOperand_dynamicOperand hn]
    unfold perform
    dsimp only
    rw [Task.exec_bind_ok Run.exec_pop, callValue]
    dsimp only
    rw [callClosure_eq hf hvariadic hparams]
    rfl
  | @hostValue sig index hvariadic =>
    have hparams : sig.params = fixed ++ [last] := hparams
    refine ⟨do m.callHost call ⟨sig, .host index⟩ "func value" (← Run.popMany sig.params.length),
      fun s args hargs => exec_start_host hargs, fun s => ?_⟩
    rw [carryOut_singleton, ofOperand_dynamicOperand hn]
    unfold perform
    dsimp only
    rw [Task.exec_bind_ok Run.exec_pop, callValue]
    dsimp only
    rw [Run.takeArgs_eq hvariadic hparams, bind_assoc]
    rfl

/-! ## What the function starts on -/

/-- A slice of the element type of a parameter may stand there. -/
theorem fits_slice {elem : Ty} {id : Nat} {items : List Value}
    (hlast : last.underlying = .slice elem) : (Value.slice id elem items).fits last = true := by
  unfold Value.fits
  rw [hlast]
  exact Ty.same_refl (.slice elem)

/-- A function that has its arguments gets a new frame. -/
theorem exec_openFrame_eq {f : FuncInfo} {id : Nat} (parent : Nat) {vars : Array Value}
    (hargs : f.numIn ≤ s.stack.size) (hvars : m.frames[id]? = some vars) :
    (m.openFrame id parent f).exec s = (.ok s.world.store.frames.size, { s with world :=
      { s.world with store := (s.world.store.newFrame ⟨some id, some parent, s.stack.size, vars⟩).2 } }) := by
  unfold openFrame Run.height
  rw [bind_assoc, Task.exec_bind_ok (Task.exec_get _), pure_bind]
  dsimp only
  rw [if_neg (by omega), hvars]
  rfl

/-- The frame of a script function reads its parameters where the arguments were left. -/
theorem exec_openFrame {f : FuncInfo} {id parent : Nat} {vars : Array Value} {args : List Value}
    (hargs : args.length = f.numIn) (hvars : m.frames[id]? = some vars) :
    ∃ frame s', (m.openFrame id parent f).exec (s.above args) = (.ok frame, s') ∧
      ∀ i v, args[i]? = some v →
        (m.perform call frame (.loadArg (f.numIn - i))).exec s' = (.ok (), s'.above [v]) := by
  have hsize : (s.above args).stack.size = s.stack.size + args.length := by simp [Thread.above]
  have hopen := exec_openFrame_eq (s := s.above args) (f := f) parent (by omega) hvars
  rw [Thread.above_world] at hopen
  refine ⟨_, _, hopen, fun i v hv => ?_⟩
  have hi : i < args.length := (List.getElem?_eq_some_iff.1 hv).1
  have hread : Stack.read? (s.above args).stack ((s.above args).stack.size - (f.numIn - i)) =
      .ok v := by
    have hindex : (s.above args).stack.size - (f.numIn - i) = s.stack.size + i := by omega
    have hget : (s.above args).stack[s.stack.size + i]? = some v := by
      unfold Thread.above
      rw [Array.getElem?_append_right (by omega)]
      simpa using hv
    rw [hindex, Stack.read?, hget]
  unfold perform Run.argumentHeight
  dsimp only
  rw [bind_assoc, Task.exec_bind_ok (Task.exec_get _)]
  dsimp only
  have hframe : (s.world.store.newFrame ⟨some id, some parent, (s.above args).stack.size,
      vars⟩).2.frames[s.world.store.frames.size]? =
        some ⟨some id, some parent, (s.above args).stack.size, vars⟩ := by
    simp [Store.newFrame]
  rw [hframe]
  simp only [Task.expect, pure_bind]
  rw [if_neg (by omega), pure_bind, Task.exec_bind_ok (Task.exec_get _)]
  dsimp only
  rw [hread]
  exact Run.exec_push

/-- By whatever way a variadic function is called, it starts on the arguments for its first
parameters, followed by one slice of the others. What lies below the arguments stays. -/
theorem variadic_call_starts {elem : Ty} (hparams : t.params = fixed ++ [last])
    (hlast : last.underlying = .slice elem) (s : Thread) :
    (∀ vs code top, vs.length < Word.spreadCall →
      m.Route call ctx (.count vs.length) code top t →
      (fixed.length ≤ vs.length → (∀ v ∈ vs.drop fixed.length, v.fits elem = true) →
        (m.carryOut call ctx code).exec (s.above (vs ++ top)) =
          (t.start (vs.take fixed.length ++
            [.slice s.world.store.fresh elem (vs.drop fixed.length)])).exec s.numbered) ∧
      (vs.length < fixed.length → (m.carryOut call ctx code).exec (s.above (vs ++ top)) =
        (.error (.error (.of (.arity t.name fixed.length vs.length))), s.above vs)) ∧
      (fixed.length ≤ vs.length → (∃ v ∈ vs.drop fixed.length, v.fits elem = false) →
        ∃ bad ∈ vs.drop fixed.length, bad.fits elem = false ∧
          (m.carryOut call ctx code).exec (s.above (vs ++ top)) =
            (.error (.error (.of (.typeMismatch (.type elem) bad.type))),
              s.above (vs.take fixed.length)))) ∧
    (∀ vs code top, vs.length = fixed.length → m.Route call ctx .spread code top t →
      (∀ id items, (m.carryOut call ctx code).exec (s.above (vs ++ [.slice id elem items] ++ top)) =
        (t.start (vs ++ [.slice id elem items])).exec s) ∧
      (m.carryOut call ctx code).exec (s.above (vs ++ [.nil] ++ top)) =
        (t.start (vs ++ [.slice s.world.store.fresh elem []])).exec s.numbered) ∧
    (∀ (sig : Signature) vs id items, sig.params = t.params → vs.length = fixed.length →
      (∀ p ∈ vs.zip fixed, p.1.fits p.2 = true) →
      Natives.checkArgs sig (vs ++ [.slice id elem items]) = .ok ()) ∧
    (∀ (f : FuncInfo) id parent vars args, f.params = t.params → args.length = t.params.length →
      m.frames[id]? = some vars →
      ∃ frame s', (m.openFrame id parent f).exec (s.above args) = (.ok frame, s') ∧
        ∀ i v, args[i]? = some v →
          (m.perform call frame (.loadArg (f.numIn - i))).exec s' = (.ok (), s'.above [v])) := by
  have helem : last.elem?.getD .any = elem := Ty.getD_elem?_of_slice hlast
  have hlength : t.params.length = fixed.length + 1 := by simp [hparams]
  refine ⟨fun vs code top hn hroute => ?_, fun vs code top hvs hroute => ?_,
    fun sig vs id items hsig hvs hfit => ?_, fun f id parent vars args hf hargs hvars => ?_⟩
  · obtain ⟨enter, hstart, hpack⟩ := exec_route hroute hparams (by rintro n ⟨⟩; exact hn)
    rw [← Thread.above_above, hpack]
    refine ⟨fun hfixed hfit => ?_, fun hfew => ?_, fun hfixed ⟨v, hv, hmisfit⟩ => ?_⟩
    · rw [Task.exec_bind_ok (Run.exec_pack_count helem hfixed hfit)]
      exact hstart _ _ (by simp [hlength, hfixed])
    · exact Task.exec_bind_error (Run.exec_pack_few hfew)
    · obtain ⟨bad, hbad⟩ := Option.isSome_iff_exists.1
        ((List.find?_isSome (p := fun v => !v.fits elem)).2 ⟨v, hv, show (!v.fits elem) = true by simp [hmisfit]⟩)
      have hbadfit := List.find?_some hbad
      exact ⟨bad, List.mem_of_find?_eq_some hbad, by simpa using hbadfit,
        Task.exec_bind_error (Run.exec_pack_misfit helem hfixed hbad)⟩
  · obtain ⟨enter, hstart, hpack⟩ := exec_route hroute hparams (by rintro n ⟨⟩)
    refine ⟨fun id items => ?_, ?_⟩
    · rw [← Thread.above_above, hpack, Task.exec_bind_ok Run.exec_pack_slice]
      exact hstart _ _ (by simp [hlength, hvs])
    · rw [← Thread.above_above, hpack, Task.exec_bind_ok (Run.exec_pack_nil helem)]
      exact hstart _ _ (by simp [hlength, hvs])
  · rw [Natives.checkArgs_eq_ok_iff, hsig, hparams]
    exact List.rel_append (List.forall₂_iff_zip.2 ⟨hvs, fun hp => hfit _ hp⟩) (.cons (fits_slice hlast) .nil)
  · exact exec_openFrame (by rw [hargs, FuncInfo.numIn, hf]) hvars

/-- A program of one variadic function. -/
def joining : Machine where
  program := { (default : Program) with
    funcs := #[⟨"join", 1, [.basic .string, .slice (.basic .string)], .variadic, 0, #[], some 0,
      some 0, none⟩]
    variadic := #[0] }
  limits := {}
  natives := .empty
  frames := #[#[]]
  globals := #[]

theorem joining_starts_on_many :
    (joining.carryOut joining.callTop 0 [.pushInt (some (.int .int)) 478, .callFuncv .overflow 0]).exec
      (Thread.above ⟨default, #[], 0, 0⟩ (List.replicate 1500 (.string "a"))) =
    ((VariadicFunc.script joining.callTop joining.program.funcs[0]! 0
        (parentOf joining.program.funcs[0]! 0)).start
      [.string "a", .slice 1 (.basic .string) (List.replicate 1499 (.string "a"))]).exec
        (Thread.numbered ⟨default, #[], 0, 0⟩) := by
  have hcode : ArityCode joining.program (.count (List.replicate 1500 (Value.string "a")).length)
      [.pushInt (some (.int .int)) 478] .overflow :=
    .overflow (by rw [List.length_replicate]; decide) rfl
      (by rw [List.length_replicate]; exact ⟨rfl, .inl rfl⟩)
  have hat : joining.program.At 0 true 0 := ⟨⟨_, rfl, rfl⟩, rfl⟩
  have hroute : joining.Route joining.callTop 0 _ _ _ _ := .func hat rfl hcode
  have hparams : joining.program.funcs[0]!.params = [.basic .string] ++ [.slice (.basic .string)] :=
    rfl
  have hstart := ((variadic_call_starts hparams rfl ⟨default, #[], 0, 0⟩).1 _ _ _ (by rw [List.length_replicate]; decide) hroute).1
      (by rw [List.length_replicate]; decide) (by
      intro v hv
      rw [List.drop_replicate] at hv
      rw [List.eq_of_mem_replicate hv]
      rfl)
  rw [List.append_nil, List.take_replicate, List.drop_replicate] at hstart
  exact hstart

end Machine

end StackScript
