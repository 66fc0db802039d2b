import StackScript.Constant.Literal

/-!
# Program trees

What a front end hands to the compiler: a file of imports, function declarations and statements.
Function literals carry a label; `File.labelled` gives each its own.
-/

namespace StackScript

/-! ## Type expressions -/

mutual

inductive TypeExpr
  | name (name : String)
  | qualified (package name : String)
  | slice (elem : TypeExpr)
  | ptr (elem : TypeExpr)
  | func (ty : FuncTypeExpr)

/-- Parameters and results of a function. The last parameter of a variadic one shows the type of a
single trailing argument. -/
structure FuncTypeExpr where
  params : List Param
  variadic : Bool
  results : List Param

/-- A parameter or result, which may have no name. -/
structure Param where
  name : Option String
  ty : TypeExpr

end

instance : Inhabited TypeExpr := ⟨.name ""⟩

instance : Inhabited FuncTypeExpr := ⟨⟨[], false, []⟩⟩

instance : Inhabited Param := ⟨⟨none, default⟩⟩

/-! ## Expressions and statements -/

/-- What an assignment does with its targets. -/
inductive AssignMode
  | assign
  | define
  | update (op : Operator)
deriving DecidableEq, Repr

mutual

inductive Expr
  | ident (name : String)
  | lit (l : Literal)
  | binary (op : Operator) (x y : Expr)
  | call (f : Expr) (args : List Expr) (spread : Bool)
  | select (x : Expr) (name : String)
  | funcLit (label : Nat) (ty : FuncTypeExpr) (body : List Stmt)
  | addrOf (x : Expr)
  | deref (x : Expr)

inductive Stmt
  | expr (e : Expr)
  | assign (mode : AssignMode) (targets values : List Expr)
  | ret (values : List Expr)
  | block (body : List Stmt)
  | increment (x : Expr)
  | decrement (x : Expr)

end

instance : Inhabited Expr := ⟨.ident ""⟩

instance : Inhabited Stmt := ⟨.block []⟩

/-- The expression in short, for messages. -/
def Expr.shown : Expr → String
  | .ident name => name
  | .lit l => l.text
  | .binary op x y => x.shown ++ " " ++ op.text ++ " " ++ y.shown
  | .call f _ _ => f.shown ++ "(...)"
  | .select x name => x.shown ++ "." ++ name
  | .funcLit .. => "func literal"
  | .addrOf x => "&" ++ x.shown
  | .deref x => "*" ++ x.shown
termination_by structural e => e

/-! ## Files -/

structure Import where
  path : String
  nickname : Option String
deriving DecidableEq, Repr

/-- The name of an imported package: its nickname, or what follows the last slash of its path. -/
def Import.localName (i : Import) : String :=
  match i.nickname with
  | some name => name
  | none => String.ofList (i.path.toList.reverse.takeWhile (· != '/')).reverse

/-- A function declaration; without a body it only announces the function. -/
structure FuncDecl where
  name : String
  recv : Option Param
  ty : FuncTypeExpr
  body : Option (List Stmt)

structure File where
  imports : List Import
  funcs : List FuncDecl
  stmts : List Stmt

/-! ## Labels -/

mutual

/-- The expression with its function literals labelled from `n` on, and the next free label. -/
def Expr.labelled : Expr → Nat → Expr × Nat
  | .ident name, n => (.ident name, n)
  | .lit l, n => (.lit l, n)
  | .binary op x y, n =>
    let (x, n) := x.labelled n
    let (y, n) := y.labelled n
    (.binary op x y, n)
  | .call f args spread, n =>
    let (f, n) := f.labelled n
    let (args, n) := labelExprs args n
    (.call f args spread, n)
  | .select x name, n =>
    let (x, n) := x.labelled n
    (.select x name, n)
  | .funcLit _ ty body, n =>
    let (body, m) := labelStmts body (n + 1)
    (.funcLit n ty body, m)
  | .addrOf x, n =>
    let (x, n) := x.labelled n
    (.addrOf x, n)
  | .deref x, n =>
    let (x, n) := x.labelled n
    (.deref x, n)
termination_by structural e => e

def labelExprs : List Expr → Nat → List Expr × Nat
  | [], n => ([], n)
  | e :: es, n =>
    let (e, n) := e.labelled n
    let (es, n) := labelExprs es n
    (e :: es, n)
termination_by structural es => es

def Stmt.labelled : Stmt → Nat → Stmt × Nat
  | .expr e, n =>
    let (e, n) := e.labelled n
    (.expr e, n)
  | .assign mode targets values, n =>
    let (targets, n) := labelExprs targets n
    let (values, n) := labelExprs values n
    (.assign mode targets values, n)
  | .ret values, n =>
    let (values, n) := labelExprs values n
    (.ret values, n)
  | .block body, n =>
    let (body, n) := labelStmts body n
    (.block body, n)
  | .increment x, n =>
    let (x, n) := x.labelled n
    (.increment x, n)
  | .decrement x, n =>
    let (x, n) := x.labelled n
    (.decrement x, n)
termination_by structural s => s

def labelStmts : List Stmt → Nat → List Stmt × Nat
  | [], n => ([], n)
  | s :: ss, n =>
    let (s, n) := s.labelled n
    let (ss, n) := labelStmts ss n
    (s :: ss, n)
termination_by structural ss => ss

end

/-- The declarations with their function literals labelled. -/
def labelDecls : List FuncDecl → Nat → List FuncDecl × Nat
  | [], n => ([], n)
  | d :: ds, n =>
    let (body, n) := match d.body with
      | some body =>
        let (body, n) := labelStmts body n
        (some body, n)
      | none => (none, n)
    let (ds, n) := labelDecls ds n
    ({ d with body } :: ds, n)

/-- The file with every function literal under a label of its own, and the number of labels. -/
def File.labelled (f : File) : File × Nat :=
  let (stmts, n) := labelStmts f.stmts 0
  let (funcs, n) := labelDecls f.funcs n
  ({ f with funcs, stmts }, n)

end StackScript
