import StackScript.Proofs.Folding.Trees

/-!
# Running a main body directly

A main body without calls and pointers is run on an environment: the blocks that are open, with the
numbers of the variables they declare, and the values of all variables in the order in which they
were declared. Nothing is compiled. Operands are evaluated from left to right; constants are
combined before they have a kind, if folding is asked for.
-/

namespace StackScript

namespace Direct

/-! ## Environments -/

/-- Open blocks, the innermost first, with the numbers of their variables. -/
abbrev Blocks := List (List (String × Nat))

namespace Blocks

/-- The innermost variable with a name. -/
def find? (bs : Blocks) (name : String) : Option Nat := bs.findSome? (·.lookup name)

/-- Whether the innermost block declares the name. -/
def declares (bs : Blocks) (name : String) : Bool := (bs.head?.bind (·.lookup name)).isSome

/-- Adds a variable to the innermost block. -/
def declare (bs : Blocks) (name : String) (id : Nat) : Blocks :=
  match bs with
  | b :: outer => ((name, id) :: b) :: outer
  | [] => [[(name, id)]]

end Blocks

structure Env where
  blocks : Blocks
  vars : Array Value

/-- Nothing is declared yet. -/
def Env.initial : Env := ⟨[[]], #[]⟩

/-! ## Outcomes -/

/-- Why there is no outcome: an operator yields nothing, or the program makes no sense. -/
inductive Failure
  | evaluation (e : EvalError)
  | refused

abbrev Outcome := Except Failure

/-- What makes no sense if it fails. -/
def sound {α ε : Type} (r : Except ε α) : Outcome α := r.mapError fun _ => .refused

/-- The value of an operator. -/
def evaluated (r : Except EvalError Value) : Outcome Value := r.mapError .evaluation

namespace Env

def value? (env : Env) (name : String) : Option Value :=
  (env.blocks.find? name).bind (env.vars[·]?)

/-- Adds a variable with its first value. -/
def declare (env : Env) (name : String) (v : Value) : Env :=
  ⟨env.blocks.declare name env.vars.size, env.vars.push v⟩

/-- Changes the value of a variable. -/
def change (env : Env) (name : String) (f : Value → Outcome Value) : Outcome Env :=
  match env.blocks.find? name with
  | none => .error .refused
  | some id =>
    match env.vars[id]? with
    | none => .error .refused
    | some old => do return { env with vars := env.vars.setIfInBounds id (← f old) }

end Env

/-! ## Operands -/

/-- A constant, whose kind may be open, or a value. -/
inductive Operand
  | constant (c : Constant)
  | value (v : Value)

namespace Operand

/-- The operand with what is known of its kind. -/
def known : Operand → Constant
  | constant c => c
  | value v => .bound v

/-- The value of an operand that nothing else gives a kind. -/
def settled (x : Operand) : Outcome Value := sound x.known.bindDefault

/-- The value of an operand that goes where values of a kind are. -/
def fitted (k : Kind) (x : Operand) : Outcome Value := sound (x.known.bind k)

/-- An operator on two operands, bound or converted to the kinds that it works on. -/
def compute (op : Operator) (x y : Operand) : Outcome Operand := do
  let r ← sound (op.settle x.known.operandKind y.known.operandKind)
  let v ← sound (x.known.coerce r.first)
  let w ← sound (y.known.coerceSecond r.second)
  return .value (← evaluated (op.eval r.operand v w))

/-- An operator on two operands. -/
def combine (folds : Bool) (op : Operator) (x y : Operand) : Outcome Operand :=
  match folds, x, y with
  | true, constant a, constant b => do return .constant (← sound (Constant.fold op a b))
  | _, x, y => compute op x y

/-- The new value of a variable that an operator updates. -/
def update (op : Operator) (x : Operand) (old : Value) : Outcome Value := do
  if !op.hasUpdateForm then throw .refused
  let r ← sound (op.resolve (.bound old.kind) x.known.operandKind)
  if r.first ≠ old.kind then throw .refused
  let w ← sound (x.known.coerceSecond r.second)
  evaluated (op.eval r.operand old w)

end Operand

/-- The new value of a variable that goes one up or down. -/
def stepped (up : Bool) (old : Value) : Outcome Value :=
  match (Value.int 1).convert old.kind with
  | some one => evaluated ((stepOperator up).eval old.kind old one)
  | none => .error .refused

end Direct

open Direct

/-! ## Expressions -/

/-- What an expression comes to. -/
def Expr.evaluate (folds : Bool) (env : Env) : Expr → Outcome Operand
  | .lit l => (sound l.constant).map .constant
  | .ident name =>
    match env.value? name with
    | some v => .ok (.value v)
    | none =>
      if name = toString true then .ok (.constant (.bound (.bool true)))
      else if name = toString false then .ok (.constant (.bound (.bool false)))
      else .error .refused
  | .binary op x y => do
    let a ← x.evaluate folds env
    let b ← y.evaluate folds env
    a.combine folds op b
  | _ => .error .refused
termination_by structural e => e

/-! ## Statements -/

namespace Direct

/-- Gives a value to a target. -/
def give (defines : Bool) (env : Env) (x : Operand) : Expr → Outcome Env
  | .ident name =>
    if name = "_" then do
      discard x.settled
      return env
    else if defines then
      if env.blocks.declares name then .error .refused
      else do return env.declare name (← x.settled)
    else env.change name fun old => x.fitted old.kind
  | _ => .error .refused

/-- Gives values to targets, one after another. -/
def giveAll (defines : Bool) : Env → List Operand → List Expr → Outcome Env
  | env, x :: xs, t :: ts => do giveAll defines (← give defines env x t) xs ts
  | env, [], [] => .ok env
  | _, _, _ => .error .refused

/-- Assigns values, all of them evaluated before the last target gets its value. -/
def assign (folds defines : Bool) (env : Env) (targets values : List Expr) : Outcome Env := do
  let xs ← values.mapM (·.evaluate folds env)
  giveAll defines env xs.reverse targets.reverse

/-- Updates a variable by an operator. -/
def update (folds : Bool) (op : Operator) (env : Env) : List Expr → List Expr → Outcome Env
  | [.ident name], [value] => do
    let x ← value.evaluate folds env
    env.change name (x.update op)
  | _, _ => .error .refused

/-- Moves a variable one up or down. -/
def step (up : Bool) (env : Env) : Expr → Outcome Env
  | .ident name => env.change name (stepped up)
  | _ => .error .refused

end Direct

mutual

/-- Runs a statement. -/
def Stmt.evaluate (folds : Bool) (env : Env) : Stmt → Outcome Env
  | .expr e => do
    let x ← e.evaluate folds env
    discard x.settled
    return env
  | .assign .assign targets values => Direct.assign folds false env targets values
  | .assign .define targets values => Direct.assign folds true env targets values
  | .assign (.update op) targets values => Direct.update folds op env targets values
  | .block body => do
    let env' ← evaluateStmts folds { env with blocks := [] :: env.blocks } body
    return { env' with blocks := env.blocks }
  | .increment x => Direct.step true env x
  | .decrement x => Direct.step false env x
  | .ret _ => .error .refused
termination_by structural s => s

/-- Runs statements one after another. -/
def evaluateStmts (folds : Bool) (env : Env) : List Stmt → Outcome Env
  | [] => .ok env
  | s :: ss => do evaluateStmts folds (← s.evaluate folds env) ss
termination_by structural ss => ss

end

end StackScript
