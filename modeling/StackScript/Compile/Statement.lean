import StackScript.Compile.Expression

/-!
# Statements

The code of a statement leaves the stack as it found it. An assignment pushes all its values before
it stores the first one, so its targets change together.
-/

namespace StackScript

/-- What an update writes to: something with an address, or a parameter below the frame. -/
inductive Target
  | addr (ty : Ty)
  | param (below : Nat) (ty : Ty)

def Target.ty : Target → Ty
  | addr ty | param _ ty => ty

namespace Compile

/-! ## Targets of assignments -/

/-- The variable or parameter that a name stands for, as a target. -/
def assignable (name : String) : Compile (Nat ⊕ Nat × Ty) := do
  match ← find? name with
  | some (.var id) => return .inl id
  | some (.param func index ty) => return .inr (← paramBelow name func index, ty)
  | some (.func _) | some (.package _) => fail (.invalidTarget name)
  | none => fail (.assignUndeclared name)

/-- Assigns the top value to a name. -/
def assignName (name : String) : Compile Unit := do
  if name = "_" then discardTop
  else
    let context := "assignment to " ++ name
    match ← assignable name with
    | .inl id => do
      fitTop (← asm (Assembly.var id)).ty context
      discard pop
      emitStore id
    | .inr (below, ty) => do
      fitTop ty context
      discard pop
      asm (Assembly.storeArg below)

/-- Assigns the top value through a pointer. -/
def assignThrough (p : Expr) : Compile Unit := do
  let elem ← pointee p (← infer p)
  fitTop elem ("assignment to *" ++ p.shown)
  discard pop
  emit p
  discard pop
  asm (Assembly.addrOp elem.kind .store)

/-- The type that a new variable takes from its first value. -/
def definedType (e : Inferred) : Compile Ty :=
  match e with
  | .const (.bound v) _ => pure (.basic v.kind)
  | .value t => pure t
  | e => fail (.notAValue (e.describe .empty))

/-- Declares a variable that holds the top value. -/
def defineName (name : String) : Compile Unit := do
  if name = "_" then discardTop
  else
    if (← get).names.declares name then fail (.redefined name)
    bindDefaultTop
    let ty ← definedType (← pop)
    let id ← newVar name ty
    declare name (.var id)
    emitStore id

/-- Gives the top value to a target. -/
def assignTo (defines : Bool) : Expr → Compile Unit
  | .ident name => if defines then defineName name else assignName name
  | .deref p => if defines then fail (.invalidTarget (Expr.deref p).shown) else assignThrough p
  | e => fail (.invalidTarget e.shown)

/-! ## Assignments -/

/-- That the entry an expression left is a single value. -/
def checkSingle (x : Expr) (e : Inferred) : Compile Unit :=
  match e with
  | .results [] => fail (.notAValue (x.shown ++ " (no value)"))
  | .results _ => fail (.multiValue x.shown)
  | .package .. => fail (.notAValue x.shown)
  | _ => pure ()

/-- Pushes the values of an assignment to `n` targets. A sole call may give all of them. -/
def emitValues (n : Nat) (values : List Expr) : Compile Unit := do
  match values with
  | [value] =>
    if n = 1 then
      emit value
      checkSingle value (← top)
    else
      emit value
      match ← pop with
      | .results types =>
        if types.length = n then replace 0 (types.map .value)
        else fail (.valueCount n types.length)
      | _ => fail (.valueCount n 1)
  | _ =>
    if values.length ≠ n then fail (.valueCount n values.length)
    values.forM fun value => do
      emit value
      checkSingle value (← top)

def emitAssign (defines : Bool) (targets values : List Expr) : Compile Unit := do
  emitValues targets.length values
  targets.reverse.forM (assignTo defines)

/-! ## Updates -/

/-- What an update of an expression writes to. -/
def target : Expr → Compile Target
  | .ident name => do
    match ← assignable name with
    | .inl id => return .addr (← asm (Assembly.var id)).ty
    | .inr (below, ty) => return .param below ty
  | .deref p => do return .addr (← pointee p (← infer p))
  | e => fail (.invalidTarget e.shown)

/-- Code that applies an operator at the address of a target. -/
def emitAtAddress (x : Expr) (k : Kind) (op : AddressOperator) : Compile Unit := do
  match x with
  | .deref p => emit p
  | x => emitAddress x
  discard pop
  asm (Assembly.addrOp k op)

/-- Combines a target with a value by an operator. -/
def emitUpdate (op : Operator) (x value : Expr) : Compile Unit := do
  if !op.hasUpdateForm then fail (.unsupported (op.text ++ "= assignment") none)
  let t ← target x
  let k := t.ty.kind
  let e ← infer value
  let r ← ofOperands (op.resolve (.bound k) (← operandKind value e))
  if r.first ≠ k then
    fail (.typeMismatch t.ty.text r.first.text (op.text ++ "= to " ++ x.shown))
  match t with
  | .param below _ => asm (Assembly.loadArg below)
  | .addr _ => pure ()
  emit value
  coerceSecond r
  discard pop
  match t with
  | .addr _ => emitAtAddress x k (.update op)
  | .param below _ => do
    asm (Assembly.builtinOp r.operand op)
    asm (Assembly.storeArg below)

/-- Adds one to a target, or takes one off. -/
def emitStep (up : Bool) (x : Expr) : Compile Unit := do
  let op := if up then Operator.add else .sub
  let t ← target x
  let k := t.ty.kind
  if !k.isNumeric then fail (.operands (.notDefined op k))
  match t with
  | .addr _ => emitAtAddress x k (if up then .increment else .decrement)
  | .param below _ =>
    match (Value.int 1).convert k with
    | none => fail (.internal ("no unit value of " ++ k.text))
    | some one => do
      asm (Assembly.loadArg below)
      discard (asm (Assembly.pushValue one))
      asm (Assembly.builtinOp k op)
      asm (Assembly.storeArg below)

/-! ## Returns -/

/-- That the values of a call go into the results of a function. -/
def checkReturned (types results : List Ty) : Compile Unit :=
  (types.zip results).forM fun (t, result) => checkAssignable t result "return statement"

/-- Code that returns the given values. -/
def emitReturnValues (body : Body) (values : List Expr) : Compile Unit := do
  let expected := body.results.length
  match values, decide (1 < expected) with
  | [value], true => do
    emit value
    match ← pop with
    | .results types =>
      if types.length ≠ expected then fail (.returnCount body.name expected types.length)
      checkReturned types body.results
    | _ => fail (.returnCount body.name expected 1)
    asm (Assembly.ret expected)
  | _, _ => do
    if values.length ≠ expected then fail (.returnCount body.name expected values.length)
    emitEach values "return statement" body.results
    cutTo 0
    asm (Assembly.ret expected)

def emitReturn (values : List Expr) : Compile Unit := do
  let body := (← get).body
  if body.func.isNone then fail .returnOutsideFunction
  if values.isEmpty then
    if body.results.isEmpty || body.namedResults then asm Assembly.retVars
    else fail (.bareReturn body.name)
  else emitReturnValues body values

/-! ## Statements -/

/-- Code that evaluates an expression and drops what it leaves. -/
def emitDropped (e : Expr) : Compile Unit := do
  emit e
  match ← top with
  | .results types => do
    discard pop
    asm (Assembly.pop types.length)
  | .package _ name => fail (.notAValue ("package " ++ name))
  | _ => discardTop

/-- That the shadow stack is empty between statements. -/
def atRest : Compile Unit := do
  let s ← get
  let len := s.shadow.length
  if len ≠ 0 then
    let name := s.body.name
    ofChecked (.error (.because
      s!"inference stack holds {len} entries after a statement in {name}"))

mutual

/-- Emits the code of a statement. -/
def emitStmt : Stmt → Compile Unit
  | .expr e => emitDropped e
  | .assign .assign targets values => emitAssign false targets values
  | .assign .define targets values => emitAssign true targets values
  | .assign (.update op) targets values =>
    match targets, values with
    | [x], [value] => emitUpdate op x value
    | _, _ => fail (.valueCount targets.length values.length)
  | .ret values => emitReturn values
  | .block body => inBlock (emitStmts body)
  | .increment x => emitStep true x
  | .decrement x => emitStep false x
termination_by structural s => s

def emitStmts : List Stmt → Compile Unit
  | [] => pure ()
  | s :: ss => do
    emitStmt s
    atRest
    emitStmts ss
termination_by structural ss => ss

end

end Compile

end StackScript
