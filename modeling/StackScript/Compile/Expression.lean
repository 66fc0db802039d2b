import StackScript.Compile.Names
import StackScript.Constant.Fold

/-!
# Expressions

`infer` looks ahead: it finds out what is known of an expression and emits nothing. `emit` emits the
code that leaves the value of the expression on the stack, and one entry on the shadow stack. Where
the code depends on the kinds of operands or arguments, `emit` asks `infer` first.
-/

namespace StackScript

/-- What an operator on two expressions comes to. -/
inductive Combined
  | folded (c : Constant)
  | applied (r : Resolution)

namespace Compile

/-! ## Operators -/

/-- The kind of an operand. -/
def operandKind (x : Expr) (e : Inferred) : Compile OperandKind :=
  match e, e.operandKind? with
  | _, some k => pure k
  | .results (_ :: _ :: _), none => fail (.multiValue x.shown)
  | _, none => fail (.notAValue x.shown)

/-- An operator on two operands. Two untyped constants that are not folded take on their default
kinds. -/
def combine (op : Operator) (x y : Expr) (ex ey : Inferred) : Compile Combined := do
  let kx ← operandKind x ex
  let ky ← operandKind y ey
  match ex, ey with
  | .const cx _, .const cy _ => do
    if (← read).folds then return .folded (← ofFolded (Constant.fold op cx cy))
    if kx.isBound || ky.isBound || op.isShift then
      return .applied (← ofOperands (op.resolve kx ky))
    return .applied (← ofOperands (op.resolve (.bound kx.default) (.bound ky.default)))
  | _, _ => return .applied (← ofOperands (op.resolve kx ky))

/-- Brings the top value to the kind of the second operand; a shift count keeps its own. -/
def coerceSecond (r : Resolution) : Compile Unit :=
  match r.second with
  | some k => coerceTop k
  | none => bindDefaultTop

/-! ## Calls -/

/-- The function that a call names, if the look-ahead knows it, and its signature. -/
def callee (f : Expr) (e : Inferred) : Compile (Option FuncRef × Signature) :=
  match e with
  | .func ref sig => pure (some ref, sig)
  | .value t =>
    match t.signature? with
    | some sig => pure (none, sig)
    | none => fail (.notCallable (f.shown ++ " of type " ++ t.text))
  | e => fail (.notCallable (e.describe .empty))

/-- The entry that a call leaves. -/
def resultEntry (sig : Signature) : Inferred :=
  match sig.results with
  | [t] => .value t
  | ts => .results ts

/-- The type of one trailing argument. -/
def trailing (sig : Signature) : Ty := sig.variadicElem?.getD .any

/-- Arguments that are not trailing, of a call whose first `skip` parameters are taken. -/
def fixedCount (sig : Signature) (skip : Nat) : Nat :=
  let count := sig.params.length - skip
  if sig.variadic then count - 1 else count

/-- The types that `n` arguments must have. -/
def argTypes (sig : Signature) (skip n : Nat) : List Ty :=
  let fixed := (sig.params.drop skip).take (fixedCount sig skip)
  (fixed ++ List.replicate (n - fixed.length) (trailing sig)).take n

/-- That a call has as many arguments as its signature takes. -/
def checkCount (sig : Signature) (skip n : Nat) (shown : String) : Compile Unit :=
  let fixed := fixedCount sig skip
  if if sig.variadic then n < fixed else n ≠ fixed then
    fail (.argumentCount shown sig.variadic fixed n)
  else pure ()

/-- That the values of one call go into the parameters of another. -/
def fitResults (types targets : List Ty) (context : String) : Compile Unit :=
  (types.zip targets).forM fun (t, target) => do
    checkAssignable t target context
    push (.value target)

/-- Passes `n` arguments. A sole one that gives several values stands for all; `sole` emits it and
gives their types. Otherwise `each` emits every argument and brings it to its type. -/
def passArgs (sig : Signature) (skip : Nat) (shown : String) (n : Nat) (spread : Bool)
    (sole : Compile (Option (List Ty))) (each : String → List Ty → Compile Unit) :
    Compile Arity := do
  let context := "argument to " ++ shown
  if spread then
    if !sig.variadic then
      fail (.unsupported ("'...' in call to non-variadic " ++ shown) none)
    let params := sig.params.drop skip
    if n ≠ params.length then fail (.argumentCount shown false params.length n)
    each context params
    return .spread
  else
    match ← sole with
    | some types => do
      checkCount sig skip types.length shown
      fitResults types (argTypes sig skip types.length) context
      return .count types.length
    | none => do
      checkCount sig skip n shown
      each context (argTypes sig skip n)
      return .count n

/-- The code of a call whose arguments are on the stack. -/
def emitCall (sig : Signature) (arity : Arity) : FuncRef → Compile Unit
  | .script id true => do
    asm (Assembly.closure id)
    asm (Assembly.callClosure arity)
  | .script id false =>
    if sig.variadic then asm (Assembly.callFuncv id arity) else asm (Assembly.callFunc id)
  | .native addr true _ => asm (Assembly.callNativev addr arity)
  | .native addr false _ => asm (Assembly.callNative addr)

/-- The receiver type of a method. -/
def receiverType (sig : Signature) (shown : String) : Compile Ty :=
  match sig.params with
  | recv :: _ => pure recv
  | [] => fail (.internal s!"method {shown} has no receiver")

/-- The arguments of a call, with the receiver counted in. -/
def withReceiver (skip : Nat) : Arity → Arity
  | .count n => .count (n + skip)
  | .spread => .spread

/-! ## Look-ahead -/

/-- What is known of an expression. No code comes of it, but function literals are entered. -/
def infer : Expr → Compile Inferred
  | .ident name => do namedEntry (← resolveName name)
  | .lit l => do return .const (← ofConstant l.constant) .pending
  | .binary op x y => do
    let ex ← infer x
    let ey ← infer y
    match ← combine op x y ex ey with
    | .folded c => return .const c .pending
    | .applied r => return .value (.basic r.result)
  | .call f _ _ => do
    let (_, sig) ← callee f (← infer f)
    return resultEntry sig
  | .select x name => do memberEntry (← resolveMember (← infer x) name)
  | .funcLit label ty body => do
    let id ← literalFunc label ty body
    return .func (.script id true) (← signatureOf id)
  | .addrOf x => do return .value (.ptr (← addressed x).2)
  | .deref p => do return .value (← pointee p (← infer p))
termination_by structural e => e

/-! ## Code -/

mutual

/-- Emits the code of an expression. -/
def emit : Expr → Compile Unit
  | .ident name => do emitNamed (← resolveName name)
  | .lit l => do pushConstant (← ofConstant l.constant)
  | .binary op x y => do
    let ex ← infer x
    let ey ← infer y
    match ← combine op x y ex ey with
    | .folded c => pushConstant c
    | .applied r => do
      emit x
      coerceTop r.first
      emit y
      coerceSecond r
      asm (Assembly.builtinOp r.operand op)
      replace 2 [.value (.basic r.result)]
  | .call f args spread => do
    let base := (← get).shadow.length
    let (ref?, sig) ← callee f (← infer f)
    match ref? with
    | some ref => do
      let skip ← emitReceiver f sig ref
      let arity ← passArgs sig skip f.shown args.length spread (emitSole args) (emitEach args)
      emitCall sig (withReceiver skip arity) ref
    | none => do
      let arity ← passArgs sig 0 f.shown args.length spread (emitSole args) (emitEach args)
      emit f
      asm (Assembly.callValue arity)
    cutTo base
    push (resultEntry sig)
  | .select x name => do
    match ← resolveMember (← infer x) name with
    | .native s => emitNative s
    | .field ptrs index ty => do
      emit x
      discard pop
      (List.range ptrs).forM fun _ => asm Assembly.deref
      asm (Assembly.field index)
      push (.value ty)
    | .method .. =>
      fail (.unsupported ("method value " ++ x.shown)
        (some ("call the method directly: " ++ x.shown ++ "." ++ name ++ "(...)")))
  | .funcLit label ty body => do
    let id ← literalFunc label ty body
    emitClosure id (← signatureOf id)
  | .addrOf x => emitAddress x
  | .deref p => do
    let elem ← pointee p (← infer p)
    emit p
    discard pop
    asm (Assembly.addrOp elem.kind .load)
    push (.value elem)
termination_by structural e => e

/-- Emits the receiver of a method call, and counts the parameters that are taken then. -/
def emitReceiver : Expr → Signature → FuncRef → Compile Nat
  | .select x name, sig, .native _ _ true => do
    let shown := x.shown ++ "." ++ name
    let recv ← receiverType sig shown
    emit x
    fitTop recv ("receiver of " ++ shown)
    return 1
  | _, _, .native _ _ true => fail (.internal "method call without a selector")
  | _, _, _ => return 0
termination_by structural f => f

/-- Emits a sole argument that gives several values, and gives their types. -/
def emitSole : List Expr → Compile (Option (List Ty))
  | [e] => do
    match ← infer e with
    | .results (_ :: _ :: _) => do
      emit e
      match ← pop with
      | .results types => return some types
      | _ => fail (.internal "call results changed between passes")
    | _ => return none
  | _ => return none
termination_by structural args => args

/-- Emits expressions in turn, each brought to a type. -/
def emitEach : List Expr → String → List Ty → Compile Unit
  | e :: es, context, t :: ts => do
    emit e
    fitTop t context
    emitEach es context ts
  | _, _, _ => pure ()
termination_by structural es => es

end

end Compile

end StackScript
