import StackScript.Machine.Error
import StackScript.Store
import StackScript.Task

/-!
# Host functions

A host function sees the store and the output, and may call function values in turn: each gets the
means to do so from its caller.
-/

namespace StackScript

/-- What host functions and scripts act on. -/
structure World where
  store : Store
  output : String

instance : Inhabited World := ⟨⟨.empty, ""⟩⟩

/-- The world with another call depth published. -/
def World.publishing (w : World) (depth : Nat) : World :=
  { w with store := { w.store with hostDepth := depth } }

abbrev HostTask := Task RuntimeError World

namespace HostTask

def fail {α : Type} (c : Cause) : HostTask α := Task.fail (.of c)

def ofExcept {α : Type} : Except Cause α → HostTask α
  | .ok a => pure a
  | .error c => fail c

/-- Makes something new in the store. -/
def allocate {α : Type} (make : Store → α × Store) : HostTask α := do
  let w ← get
  let (a, store) := make w.store
  set { w with store }
  return a

def newSlice (elem : Ty) (items : List Value) : HostTask Value :=
  allocate (·.newSlice elem items)

def newStruct (ty : Ty) (fields : List Value) : HostTask Value :=
  allocate (·.newStruct ty fields)

/-- A pointer to a new cell. -/
def newBox (elem : Ty) (v : Value) : HostTask Value := allocate (·.newBox elem v)

/-- The value a pointer points to. -/
def load (p : Place) : HostTask Value := do
  match (← get).store.load? p, p with
  | some v, _ => return v
  | none, .slot _ i => fail (.defect (.slot i))
  | none, .cell _ => Task.fault .outOfRange

def store (p : Place) (v : Value) : HostTask Unit := do
  let w ← get
  match w.store.store? v p, p with
  | some store, _ => set { w with store }
  | none, .slot _ i => fail (.defect (.slot i))
  | none, .cell _ => Task.fault .outOfRange

/-- Text of a value; a value whose text does not end is a fault. -/
def text (v : Value) : HostTask String := do
  Task.expect ((← get).store.text? v)

def write (s : String) : HostTask Unit :=
  modify fun w => { w with output := w.output ++ s }

/-- Publishes a call depth for as long as a task runs, however it ends. -/
def atDepth {α : Type} (depth : Nat) (t : HostTask α) : HostTask α :=
  ExceptT.mk fun world =>
    let saved := world.store.hostDepth
    let (r, world) := t.exec (world.publishing depth)
    (r, world.publishing saved)

end HostTask

/-- Calls a function value. -/
abbrev Invoker := FuncValue → List Value → HostTask (List Value)

/-- What a host function does, given the means to call function values. -/
abbrev HostBody := Invoker → List Value → HostTask (List Value)

end StackScript
