import StackScript.Machine.Stack
import StackScript.Host.Registry
import StackScript.Instr

/-!
# Threads

A thread runs script code on a value stack of its own and counts its steps and the functions that
are active. Instructions act on the thread through the operations here.
-/

namespace StackScript

structure Thread where
  world : World
  stack : Stack
  steps : Nat
  /-- Active functions, those included that led to the host code which started the thread. -/
  depth : Nat

abbrev Run := Task RuntimeError Thread

namespace Run

variable {α : Type}

def fail (c : Cause) : Run α := Task.fail (.of c)

def defect (d : Defect) : Run α := fail (.defect d)

def ofExcept : Except Cause α → Run α
  | .ok a => pure a
  | .error c => fail c

/-- Lets the host side act, on the world that the thread is in. -/
def onWorld (t : HostTask α) : Run α :=
  ExceptT.mk fun thread =>
    let ⟨world, stack, steps, depth⟩ := thread
    let (r, world) := t.exec world
    (r, ⟨world, stack, steps, depth⟩)

/-- Marks errors as having left a function. -/
def within (name : String) (t : Run α) : Run α := t.mapError (·.within name)

/-! ## The value stack -/

def setStack (s : Stack) : Run Unit := modify fun t => { t with stack := s }

def push (v : Value) : Run Unit := modify fun t => { t with stack := t.stack.push v }

def pushAll (vs : List Value) : Run Unit := modify fun t => { t with stack := t.stack ++ vs }

def height : Run Nat := do return (← get).stack.size

def pop : Run Value := do
  let (v, rest) ← ofExcept (← get).stack.pop?
  setStack rest
  return v

def popMany (n : Nat) : Run (List Value) := do
  let (vs, rest) ← ofExcept ((← get).stack.popMany? n)
  setStack rest
  return vs

/-- Drops the top `n` values. -/
def drop (n : Nat) : Run Unit := do
  let s := (← get).stack
  if s.size < n then fail (.underflow .pop)
  else setStack (s.cut (s.size - n))

/-! ## Frames -/

/-- The frame that an address counts from. -/
def frameOf (ctx : Nat) : Scope → Run Nat
  | .global => do return (← get).world.store.root ctx
  | .up n => do
    match (← get).world.store.ancestor? ctx n with
    | some f => return f
    | none => defect .scopeDistance

def load (p : Place) : Run Value := onWorld (HostTask.load p)

def store (p : Place) (v : Value) : Run Unit := onWorld (HostTask.store p v)

/-- The pointee of a value, which has to be a pointer. -/
def pointee : Value → Run Place
  | .ptr _ _ p => pure p
  | .nil => fail .nilPointer
  | v => fail (.typeMismatch .pointer v.type)

/-- The height of the stack at which an argument of the running function lies. -/
def argumentHeight (ctx below : Nat) : Run Nat := do
  let frame ← Task.expect (← get).world.store.frames[ctx]?
  if below = 0 ∨ frame.base < below then defect (.argumentSlot below)
  else return frame.base - below

/-! ## Operators -/

/-- An operator on values. -/
def evaluate (op : Operator) (k : Kind) (x y : Value) : Run Value :=
  ofExcept ((op.eval k x y).mapError .evaluation)

/-- A value read at another kind. -/
def convert (v : Value) (k : Kind) : Run Value :=
  match v.convert k with
  | some w => pure w
  | none => fail (.typeMismatch (.kind k) v.type)

/-- Replaces a pointee by what an operator makes of it. -/
def updatePlace (op : Operator) (k : Kind) (p : Place) (y : Value) : Run Unit := do
  let x ← load p
  store p (← evaluate op k x y)

/-- An operator on an address. -/
def applyAddress (k : Kind) (op : AddressOperator) (p : Place) : Run Unit :=
  match op with
  | .load => do push (← load p)
  | .store => do store p (← pop)
  | .increment => do updatePlace .add k p (← convert (.int 1) k)
  | .decrement => do updatePlace .sub k p (← convert (.int 1) k)
  | .update op => do updatePlace op k p (← pop)

/-! ## Arguments -/

/-- The argument count of a variadic call; a surplus is taken from the stack. -/
def readArity : ArityField → Run Arity
  | .spread => return .spread
  | .count n => return .count n
  | .overflow => do
    let v ← pop
    match v.scalar?.bind Scalar.signed? with
    | some n =>
      if n < 0 then fail (.typeMismatch .argumentCount v.type)
      else return .count (Word.overflowArity + n.toNat)
    | none => fail (.typeMismatch .argumentCount v.type)

/-- The last of `numIn` parameters, and how many come before it. -/
def lastParam (params : List Ty) (numIn : Nat) (callee : String) : Run (Ty × Nat) :=
  match numIn with
  | 0 => defect (.noParams callee)
  | fixed + 1 =>
    match params[fixed]? with
    | some t => return (t, fixed)
    | none => defect (.paramCount callee numIn params.length)

/-- Packs the trailing arguments into one slice; a spread call brings the slice itself. -/
def pack (last : Ty) (fixed : Nat) (callee : String) (arity : Arity) : Run Unit := do
  let elem := last.elem?.getD .any
  match arity with
  | .spread => do
    match ← pop with
    | .nil => push (← onWorld (HostTask.newSlice elem []))
    | .slice id t items => push (.slice id t items)
    | v => fail (.typeMismatch (.type last) v.type)
  | .count n => do
    if n < fixed then fail (.arity callee fixed n)
    let items ← popMany (n - fixed)
    match items.find? fun v => !v.fits elem with
    | some bad => fail (.typeMismatch (.type elem) bad.type)
    | none => push (← onWorld (HostTask.newSlice elem items))

/-- That a call brings as many arguments as a function without variadic ones takes. -/
def checkCount (callee : String) (numIn : Nat) (arity : Arity) : Run Unit :=
  match arity with
  | .count n => if n = numIn then pure () else fail (.arity callee numIn n)
  | .spread => fail (.arity callee numIn numIn)

/-- The arguments of a host function. -/
def takeArgs (sig : Signature) (callee : String) (arity : Arity) : Run (List Value) := do
  if sig.variadic then
    let (last, fixed) ← lastParam sig.params sig.params.length callee
    pack last fixed callee arity
  else checkCount callee sig.params.length arity
  popMany sig.params.length

end Run

end StackScript
