import StackScript.Machine.Thread
import StackScript.Balance

/-!
# Running programs

A machine is a linked program. A thread counts the functions that are active on it against the limit
of the call depth; code that the host calls back runs on a thread of its own, which goes on from the
depth that was published when the host was entered. So no chain of calls is longer than the limit,
and a bound of that size on the recursion, `room`, is never used up. Words of a function run in
order, so their number bounds every function.
-/

namespace StackScript

structure Limits where
  callDepth : Nat := 1000
  steps : Option Nat := none
  stackSize : Nat := 10000
  verifyStack : Bool := true

/-- A program with limits, the host functions it was linked to, and its frames before use. -/
structure Machine where
  program : Program
  limits : Limits
  natives : Natives
  frames : Array (Array Value)
  globals : Array Value

/-- What an instruction leads to: the next one, or the end of the function with a number of results
on the stack or in the result variables. -/
inductive Next
  | next
  | ret (n : Option Nat)

/-- Runs a script function, given its number and the frame of the enclosing one. -/
abbrev Caller := Nat → Nat → Run Unit

namespace Machine

/-! ## Linking -/

/-- Zero values of some variables. -/
def zeros (p : Program) (vars : Array Nat) : Except Fault (Array Value) :=
  vars.mapM fun id => do return .zero (← p.var id).ty

/-- Frames of all functions and of the main body. -/
def build (p : Program) (limits : Limits) (natives : Natives) : Except Fault Machine := do
  let frames ← p.funcs.mapM fun f => zeros p f.vars
  let globals ← zeros p p.mainVars
  return ⟨p, limits, natives, frames, globals⟩

/-- Links a program, after checking it if the limits ask for that. -/
def link (p : Program) (limits : Limits) (natives : Natives) :
    Except (Stop RuntimeError) Machine :=
  let checked := if limits.verifyStack then Balance.check p (.ofNatives natives) else .ok ()
  match checked with
  | .error (.error e) => .error (.error (.of (.unverified e.message)))
  | .error (.fault f) => .error (.fault f)
  | .ok () => (build p limits natives).mapError .fault

/-! ## Calls -/

variable (m : Machine)

/-- Counts a step, unless that exceeds a limit. -/
def tick : Run Unit := do
  modify fun t => { t with steps := t.steps + 1 }
  let t ← get
  match m.limits.steps with
  | some max => if max < t.steps then Run.fail (.stepLimit max)
  | none => pure ()
  if m.limits.stackSize < t.stack.size then Run.fail (.stackLimit m.limits.stackSize)

/-- The frame that encloses a function made or called from frame `ctx`. -/
def parentOf (f : FuncInfo) (ctx : Nat) : Run Nat := do
  if f.depth ≤ 1 then return (← get).world.store.root ctx else return ctx

/-- Calls a closure with its arguments on a thread of its own. -/
def callFresh (call : Caller) (c : Closure) (args : List Value) : HostTask (List Value) := do
  let f ← Task.ofChecked (m.program.func c.func)
  if args.length ≠ f.numIn then HostTask.fail (.arity f.name f.numIn args.length)
  ExceptT.mk fun world =>
    let (r, t) := (call c.func c.parent).exec ⟨world, args.toArray, 0, world.store.hostDepth⟩
    (r.map fun _ => t.stack.toList, t.world)

/-- Calls function values from the host. -/
def invoke (call : Caller) : Invoker := m.natives.invoke (m.callFresh call) Natives.hostNesting

/-- Calls a host function with arguments taken from the stack. -/
def callHost (call : Caller) (f : FuncValue) (name : String) (args : List Value) : Run Unit := do
  let depth := (← get).depth
  Run.pushAll (← (Run.onWorld (HostTask.atDepth depth (m.invoke call f args))).within name)

/-- Packs the trailing arguments of a script function. -/
def packScript (f : FuncInfo) (arity : Arity) : Run Unit := do
  let (last, fixed) ← Run.lastParam f.params f.numIn f.name
  Run.pack last fixed f.name arity

/-- Calls a closure with arguments from the stack. -/
def callClosure (call : Caller) (c : Closure) (arity : Arity) : Run Unit := do
  let f ← Task.ofChecked (m.program.func c.func)
  if f.isVariadic then packScript f arity else Run.checkCount f.name f.numIn arity
  call c.func c.parent

/-- A closure over frame `ctx`. -/
def makeClosure (ctx : Nat) (variadic : Bool) (index : Nat) : Run Closure := do
  match (m.program.table variadic)[index]? with
  | none => Run.defect (.tableIndex index)
  | some func => do
    let parent ← parentOf (← Task.ofChecked (m.program.func func)) ctx
    let sig ← Task.ofChecked (m.program.signature func)
    let id ← Run.onWorld (HostTask.allocate Store.number)
    return ⟨id, func, parent, sig⟩

/-- The number of the function at a place of a table. -/
def tableEntry (variadic : Bool) (index : Nat) : Run Nat :=
  match (m.program.table variadic)[index]? with
  | none => Run.defect (if variadic then .variadicFunc index else .fixedFunc index)
  | some id => return id

/-- The types of the variables of a frame. -/
def varType (frame index : Nat) : Run Ty := do
  let f ← Task.expect (← get).world.store.frames[frame]?
  let vars ← match f.func with
    | some id => do pure (← Task.ofChecked (m.program.func id)).vars
    | none => pure m.program.mainVars
  match vars[index]? with
  | some id => return (← Task.ofChecked (m.program.var id)).ty
  | none => Run.defect (.slot index)

/-- Calls a value that may be a function. -/
def callValue (call : Caller) (v : Value) (arity : Arity) : Run Unit :=
  match v with
  | .closure c => m.callClosure call c arity
  | .func f =>
    match f.callee with
    | .script c => m.callClosure call c arity
    | .host _ => do
      let args ← Run.takeArgs f.sig "func value" arity
      m.callHost call f "func value" args
  | .nil => Run.fail .nilCall
  | v => Run.fail (.notCallable v.type)

/-! ## Instructions -/

/-- Runs one instruction of the function whose frame is `ctx`. -/
def perform (call : Caller) (ctx : Nat) (i : Instr) : Run Unit :=
  match i with
  | .nop => pure ()
  | .pushInt k n => do
    match k with
    | some k => Run.push (.ofWord .int k n)
    | none => Run.defect .inlineKind
  | .pushConst index => do
    match m.program.consts[index]? with
    | some v => Run.push v
    | none => Run.defect (.constant index)
  | .pop n => Run.drop n
  | .loadVar scope index => do
    let frame ← Run.frameOf ctx scope
    Run.push (← Run.load (.slot frame index))
  | .storeVar scope index => do
    let v ← Run.pop
    let frame ← Run.frameOf ctx scope
    Run.store (.slot frame index) v
  | .addrVar scope index => do
    let frame ← Run.frameOf ctx scope
    let elem ← m.varType frame index
    Run.push (← Run.onWorld (HostTask.allocate (·.newPtr elem (.slot frame index))))
  | .addrOp k op => do
    match k, op with
    | some k, some op => do
      let p ← Run.pointee (← Run.pop)
      Run.applyAddress k op p
    | _, _ => Run.defect .addressOperand
  | .loadArg below => do
    let h ← Run.argumentHeight ctx below
    Run.push (← Run.ofExcept ((← get).stack.read? h))
  | .storeArg below => do
    let h ← Run.argumentHeight ctx below
    let v ← Run.pop
    Run.setStack (← Run.ofExcept ((← get).stack.write? h v))
  | .loadNativeVar addr => do
    match m.natives.vars[addr]? with
    | some var => Run.push (← Run.load var.cell)
    | none => Run.defect (.nativeVar addr)
  | .builtinOp k op => do
    match k, op with
    | some k, some op => do
      let y ← Run.pop
      let x ← Run.pop
      Run.push (← Run.evaluate op k x y)
    | _, _ => Run.defect .operatorOperand
  | .convert k => do
    match k with
    | some k => do Run.push (← Run.convert (← Run.pop) k)
    | none => Run.defect .conversionKind
  | .callFunc index => do
    let id ← m.tableEntry false index
    call id (← parentOf (← Task.ofChecked (m.program.func id)) ctx)
  | .callFuncv field index => do
    let id ← m.tableEntry true index
    let arity ← Run.readArity field
    let f ← Task.ofChecked (m.program.func id)
    packScript f arity
    call id (← parentOf f ctx)
  | .callNative addr => do
    match m.natives.funcs[addr]? with
    | none => Run.defect (.nativeFunc addr)
    | some entry => do
      let sig := entry.func.sig
      let args ← Run.takeArgs sig entry.name (.count sig.params.length)
      m.callHost call entry.func entry.name args
  | .callNativev field addr => do
    match m.natives.funcvs[addr]? with
    | none => Run.defect (.nativeFuncv addr)
    | some entry => do
      let params := entry.func.sig.params
      let arity ← Run.readArity field
      let (last, fixed) ← Run.lastParam params params.length entry.name
      Run.pack last fixed entry.name arity
      let args ← Run.popMany params.length
      m.callHost call entry.func entry.name args
  | .pushNative addr => do
    match m.natives.funcs[addr]? with
    | none => Run.defect (.nativeFunc addr)
    | some entry => Run.push (.func entry.func)
  | .pushNativev addr => do
    match m.natives.funcvs[addr]? with
    | none => Run.defect (.nativeFuncv addr)
    | some entry => Run.push (.func entry.func)
  | .closure variadic index => do
    Run.push (.closure (← m.makeClosure ctx variadic index))
  | .hostClosure variadic index => do
    Run.push (.func (.ofClosure (← m.makeClosure ctx variadic index)))
  | .callClosure arity => do
    match ← Run.pop with
    | .closure c => m.callClosure call c arity
    | v => Run.fail (.notCallable v.type)
  | .callValue arity => do m.callValue call (← Run.pop) arity
  | .deref => do
    let p ← Run.pointee (← Run.pop)
    Run.push (← Run.load p)
  | .field index => do
    match ← Run.pop with
    | .struct _ _ fields =>
      match fields[index]? with
      | some v => Run.push v
      | none => Run.defect (.field index)
    | v => Run.fail (.typeMismatch .struct v.type)
  | .ret _ | .retVars => pure ()

/-- Runs one instruction and tells where to go on. -/
def step (call : Caller) (ctx : Nat) (i : Instr) : Run Next :=
  match i with
  | .ret n => pure (.ret (some n))
  | .retVars => pure (.ret none)
  | i => do
    m.perform call ctx i
    return .next

/-- Runs the words from `offset` up to `stop`, or up to the first return. -/
def exec (call : Caller) (ctx stop offset : Nat) : Run (Option Nat) :=
  if offset < stop then do
    m.tick
    let w ← Task.expect m.program.code[offset]?
    match w.decode? with
    | none => Run.defect (.badWord w.toNat offset)
    | some i =>
      match ← m.step call ctx i with
      | .next => exec call ctx stop (offset + 1)
      | .ret n => return n
  else return none
termination_by stop - offset

/-- Leaves the results of a call in place of its arguments, which lay above height `height`. -/
def finish (height numOut frame : Nat) : Option Nat → Run Unit
  | some n => do Run.setStack (← Run.ofExcept ((← get).stack.keepTop? height n))
  | none => do
    let t ← get
    let f ← Task.expect t.world.store.frames[frame]?
    Run.setStack (t.stack.cut height ++ f.vars.extract 0 numOut)

/-- A new frame for a function whose arguments are on the stack. -/
def openFrame (id parent : Nat) (f : FuncInfo) : Run Nat := do
  let base ← Run.height
  if base < f.numIn then Run.fail (.underflow (.call f.name))
  let vars ← Task.expect m.frames[id]?
  Run.onWorld (HostTask.allocate (·.newFrame ⟨some id, some parent, base, vars⟩))

/-- Runs the body of a function in a new frame. -/
def enter (call : Caller) (id parent : Nat) (f : FuncInfo) (entry stop : Nat) : Run Unit := do
  let base ← Run.height
  let frame ← m.openFrame id parent f
  let returned ← (m.exec call frame stop entry).within f.name
  finish (base - f.numIn) f.numOut frame returned

/-- Counts one more active function, unless that exceeds the limit; a count that exceeds it
stays. -/
def descend (name : String) : Run Unit := do
  modify fun t => { t with depth := t.depth + 1 }
  if m.limits.callDepth < (← get).depth then Run.fail (.depthLimit m.limits.callDepth name)

/-- Calls a script function, where calls nest no deeper than `room` from there. -/
def call : Nat → Caller
  | room, id, parent => do
    let f ← Task.ofChecked (m.program.func id)
    match f.entry, f.stop with
    | some entry, some stop =>
      m.descend f.name
      match room with
      | 0 => Task.fault .outOfRange
      | room + 1 => do
        m.enter (call room) id parent f entry stop
        modify fun t => { t with depth := t.depth - 1 }
    | _, _ => Run.defect (.noBody f.name)

/-! ## From the host -/

/-- Calls functions with room for all the depth there may be: what the host and the main body do. -/
def callTop : Caller := m.call m.limits.callDepth

/-- Calls a function value from the host. -/
def invokeTop : Invoker := m.invoke m.callTop

/-- Runs the main body and gives its frame. -/
def run : HostTask Nat := do
  let frame ← HostTask.allocate (·.newFrame ⟨none, none, 0, m.globals⟩)
  ExceptT.mk fun world =>
    let (r, t) := (m.exec m.callTop frame m.program.mainEnd 0).exec ⟨world, #[], 0, 0⟩
    (r.map fun _ => frame, t.world)

/-! ## Variables -/

/-- The place of a variable, which has to be a global one. -/
def globalPlace (frame : Nat) (v : Var) : HostTask Place := do
  match v.addr with
  | some a =>
    if a.depth = 0 then return .slot ((← get).store.root frame) a.index
    else HostTask.fail .notGlobal
  | none => HostTask.fail .notGlobal

def getVar (frame : Nat) (v : Var) : HostTask Value := do HostTask.load (← globalPlace frame v)

def setVar (frame : Nat) (v : Var) (x : Value) : HostTask Unit := do
  HostTask.store (← globalPlace frame v) x

/-- The value of the global variable with a name. -/
def globalValue (frame : Nat) (name : String) : HostTask Value := do
  match ← Task.ofChecked (m.program.global? name) with
  | some v => getVar frame v
  | none => HostTask.fail .notGlobal

end Machine

end StackScript
