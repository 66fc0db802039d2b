import StackScript.Assembly
import StackScript.Compile.Scope
import StackScript.Compile.Shadow

/-!
# The compiler's state

The state holds the assembly, the shadow stack and the names. Bodies of functions wait in a queue
until the main body is complete. All that the compiler does goes through the steps of this module.
-/

namespace StackScript

/-- The function whose body is compiled; the main body has no number. -/
structure Body where
  func : Option Nat
  name : String
  depth : Nat
  numParams : Nat
  results : List Ty
  namedResults : Bool

/-- The main body. -/
def Body.main : Body := ⟨none, "main", 0, 0, [], false⟩

/-- A body that waits, and the place that it sees names from. -/
structure WaitingBody where
  func : Nat
  sig : Signature
  ty : FuncTypeExpr
  stmts : List Stmt
  path : List Nat
  horizons : List Horizon

structure CompileState where
  asm : Assembly
  shadow : Shadow
  names : NameTable
  body : Body
  queue : List WaitingBody
  /-- Functions of the literals met so far, by label. -/
  literals : List (Nat × Nat)

namespace CompileState

def initial : CompileState := ⟨.empty, [], .initial, .main, [], []⟩

end CompileState

/-- What the compiler is given besides the file. -/
structure CompileEnv where
  registry : Registry
  /-- Whether operators on constants are applied at once. -/
  folds : Bool

abbrev Compile := ReaderT CompileEnv (Task CompileError CompileState)

namespace Compile

variable {α : Type}

def fail (e : CompileError) : Compile α := fun _ => Task.fail e

def ofExcept (r : Except CompileError α) : Compile α := fun _ => Task.ofExcept r

def ofChecked (r : Except Fault α) : Compile α := fun _ => Task.ofChecked r

/-- The result of working on constants. -/
def ofConstant (r : Except ConstantError α) : Compile α :=
  ofExcept (r.mapError CompileError.ofConstant)

/-- The result of folding. -/
def ofFolded : Except (Stop ConstantError) α → Compile α
  | .ok a => pure a
  | .error (.error e) => fail (.ofConstant e)
  | .error (.fault f) => fun _ => Task.fault f

def ofOperands (r : Except OperandError α) : Compile α := ofExcept (r.mapError .operands)

/-! ## Assembling -/

/-- A step of assembling. -/
def asm (t : Asm α) : Compile α := fun _ =>
  (t.mapError .build).zoom CompileState.asm fun asm s => { s with asm }

/-! ## The shadow stack -/

def push (e : Inferred) : Compile Unit :=
  modify fun s => { s with shadow := e :: s.shadow }

def pop : Compile Inferred := do
  let (e, shadow) ← ofChecked (← get).shadow.pop?
  modify fun s => { s with shadow }
  return e

/-- The top entry, which stays. -/
def top : Compile Inferred := do
  ofChecked (← get).shadow.top?

/-- Replaces the top entries. -/
def replace (consumed : Nat) (produced : List Inferred) : Compile Unit := do
  let shadow ← ofChecked ((← get).shadow.replace? consumed produced)
  modify fun s => { s with shadow }

/-- Drops entries until `n` are left. -/
def cutTo (n : Nat) : Compile Unit := do
  let shadow ← ofChecked ((← get).shadow.cutTo? n)
  modify fun s => { s with shadow }

/-! ## Scopes -/

def find? (name : String) : Compile (Option Symbol) := do
  return (← get).names.find? name

/-- Declares a name in the innermost block, once. -/
def declare (name : String) (x : Symbol) : Compile Unit := do
  if (← get).names.declares name then fail (.redefined name)
  modify fun s => { s with names := s.names.declare name x }

/-- Declares a name, unless it is missing or blank. -/
def declareNamed (name : Option String) (x : Symbol) : Compile Unit :=
  match name with
  | none | some "_" => pure ()
  | some name => declare name x

/-- Runs a step in a block of its own. -/
def inBlock (t : Compile α) : Compile α := do
  modify fun s => { s with names := s.names.openBlock }
  let a ← t
  modify fun s => { s with names := s.names.closeBlock }
  return a

/-- Runs a step in the outermost block of a body that sees names from the given place. -/
def inBody (body : Body) (path : List Nat) (horizons : List Horizon) (t : Compile α) :
    Compile α := do
  let s ← get
  set { s with names := s.names.enterBody path horizons, body }
  let a ← t
  modify fun s' => { s' with names := s'.names.returnTo s.names, body := s.body }
  return a

def resolveSignature (ty : FuncTypeExpr) : Compile Signature := do
  ofExcept (ty.resolve (← read).registry (← get).names.find?)

/-! ## Variables and parameters -/

/-- Adds a variable to the frame of the current body. -/
def newVar (name : String) (ty : Ty) : Compile Nat := do
  let s ← get
  asm (Assembly.defineVar s.body.func (.new (.named name) ty s.names.inInner))

/-- Scope distance and slot of a variable as the current body sees it. -/
def varOperand (id : Nat) : Compile (Nat × Nat) := do
  let v ← asm (Assembly.var id)
  let name := v.name.text
  match v.addr with
  | none => fail (.internal s!"variable {name} has no address")
  | some a => do
    let depth := (← get).body.depth
    if a.depth = 0 then return (Word.globalScope, a.index)
    else if depth < a.depth then fail (.internal s!"variable {name} is deeper than its user")
    else if Word.globalScope ≤ depth - a.depth then
      let most := Word.globalScope - 1
      fail (.unsupported s!"closures nested more than {most} levels deep" none)
    else return (depth - a.depth, a.index)

/-- Distance of a parameter below the frame; only the function itself reaches it. -/
def paramBelow (name : String) (func index : Nat) : Compile Nat := do
  let body := (← get).body
  if body.func ≠ some func then fail (.captureParameter name)
  return body.numParams - index

/-! ## Functions -/

/-- A new function of the given signature. -/
def newFunc (name : String) (depth : Nat) (sig : Signature) : Compile Nat := do
  let id ← asm (Assembly.newFunc name depth)
  asm (Assembly.setVariadic id sig.variadic)
  asm (Assembly.setSignature id sig)
  return id

def enqueue (b : WaitingBody) : Compile Unit :=
  modify fun s => { s with queue := s.queue ++ [b] }

/-- The function of a literal, whose body is put into the queue when the literal is first met. -/
def literalFunc (label : Nat) (ty : FuncTypeExpr) (stmts : List Stmt) : Compile Nat := do
  let s ← get
  match s.literals.lookup label with
  | some id => return id
  | none => do
    let sig ← resolveSignature ty
    let number := s.literals.length + 1
    let id ← newFunc s!"func·{number}" (s.body.depth + 1) sig
    enqueue ⟨id, sig, ty, stmts, s.names.path, s.names.horizonsHere⟩
    modify fun s => { s with literals := (label, id) :: s.literals }
    return id

/-- The declared signature of a function. -/
def signatureOf (id : Nat) : Compile Signature := do
  let f ← asm (Assembly.func id)
  match f.sig with
  | some sig => return sig
  | none =>
    let name := f.name
    fail (.internal s!"function {name} has no signature")

end Compile

end StackScript
