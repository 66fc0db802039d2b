import StackScript.Instr
import StackScript.Value

/-!
# Programs

A program is a list of instruction words, the constants they refer to, and descriptors of its
functions and variables. The words up to `mainEnd` are the main body; each function has a range of
its own. Calls name a function by its place in the table of fixed or of variadic functions.
-/

namespace StackScript

/-! ## Variables -/

inductive VarName
  | named (name : String)
  | positional (index : Nat)
deriving DecidableEq, Repr

def VarName.text : VarName → String
  | named name => name
  | positional i => s!"${i}"

/-- Nesting depth of the declaring function, zero for the main body, and slot in its frame. -/
structure VarAddr where
  depth : Nat
  index : Nat
deriving DecidableEq, Repr

structure Var where
  name : VarName
  ty : Ty
  addr : Option VarAddr
  block : Bool

namespace Var

instance : Inhabited Var := ⟨⟨.positional 0, default, none, false⟩⟩

/-- A variable that has no address yet. -/
def new (name : VarName) (ty : Ty) (block : Bool) : Var := ⟨name, ty, none, block⟩

/-- Whether the variable is a result without a name. -/
def isUnnamedResult (v : Var) : Bool :=
  match v.name with
  | .positional _ => true
  | .named _ => false

def isGlobal (v : Var) : Bool :=
  match v.addr with
  | some a => a.depth == 0
  | none => false

/-- Gives the variable its address; it is given once. -/
def setAddr (v : Var) (depth index : Nat) : Except Fault Var :=
  match v.addr with
  | none => .ok { v with addr := some ⟨depth, index⟩ }
  | some old =>
    let name := v.name.text
    let shown := s!"VarAddr \x7b nest_depth: {old.depth}, index: {old.index} \x7d"
    .error (.because
      s!"variable {name} already has address {shown}; cannot assign ({depth}, {index})")

end Var

/-! ## Functions -/

/-- Whether a function takes a variable number of arguments, once that is known. -/
inductive Variadicity
  | unresolved
  | fixed
  | variadic
deriving DecidableEq, Repr

def Variadicity.text : Variadicity → String
  | unresolved => "unresolved"
  | fixed => "fixed"
  | variadic => "variadic"

structure FuncInfo where
  name : String
  depth : Nat
  params : List Ty
  variadicity : Variadicity
  numOut : Nat
  vars : Array Nat
  entry : Option Nat
  stop : Option Nat
  sig : Option Signature

/-- Why a function or program cannot be put together. -/
inductive BuildError
  | redefined (name : String)
  | unpairedEnd (expected got : String)
  | stillOpen (name : String)
  | undefined (name : String)
  | variadicMismatch (name : String)
  | lastNotSlice (name : String)
  | resultsAfterVars (name : String)
  | patchedTwice (offset : Nat)
  | unpatched (offset : Nat)
deriving DecidableEq, Repr

namespace BuildError

/-- The fixed name of the error, for tools that read it. -/
def code : BuildError → String
  | redefined _ => "FuncRedefined"
  | unpairedEnd .. => "UnpairedEnd"
  | stillOpen _ => "FuncOpen"
  | undefined _ => "UndefinedFunc"
  | variadicMismatch _ => "VariadicMismatch"
  | lastNotSlice _ => "VargsNotSlice"
  | resultsAfterVars _ => "ResultsAfterVars"
  | patchedTwice _ => "DoublePatch"
  | unpatched _ => "Unpatched"

def message : BuildError → String
  | redefined name => s!"function {name} defined twice"
  | unpairedEnd expected got => s!"EndFunc({got}) does not match DefineFunc({expected})"
  | stillOpen name => s!"function {name} is still open"
  | undefined name => s!"function {name} is referenced but never defined"
  | variadicMismatch name => s!"function {name}: variadic flag mismatch"
  | lastNotSlice name =>
    s!"function {name}: last parameter of a variadic function must be a slice"
  | resultsAfterVars name =>
    s!"function {name}: results must be declared before any local variable"
  | patchedTwice offset => s!"instruction slot {offset} patched twice"
  | unpatched offset => s!"instruction slot {offset} reserved but never patched"

end BuildError

namespace FuncInfo

instance : Inhabited FuncInfo := ⟨⟨"", 0, [], .unresolved, 0, #[], none, none, none⟩⟩

def new (name : String) (depth : Nat) : FuncInfo :=
  ⟨name, depth, [], .unresolved, 0, #[], none, none, none⟩

def isVariadic (f : FuncInfo) : Bool := f.variadicity == .variadic

def isDefined (f : FuncInfo) : Bool := f.entry.isSome && f.stop.isSome

def numIn (f : FuncInfo) : Nat := f.params.length

/-- Decides whether the function is variadic; the decision cannot change. -/
def setVariadic (f : FuncInfo) (variadic : Bool) : Except BuildError FuncInfo :=
  let want := if variadic then Variadicity.variadic else .fixed
  if f.variadicity = .unresolved then .ok { f with variadicity := want }
  else if f.variadicity = want then .ok f
  else .error (.variadicMismatch f.name)

/-- Declares the parameters of a function that is not variadic. -/
def setParams (f : FuncInfo) (params : List Ty) : Except BuildError FuncInfo := do
  let f ← f.setVariadic false
  return { f with params }

/-- Declares the parameters of a variadic function, of which the last is a slice. -/
def setVariadicParams (f : FuncInfo) (params : List Ty) : Except BuildError FuncInfo :=
  match params.getLast? with
  | some (.slice _) => do
    let f ← f.setVariadic true
    return { f with params }
  | _ => .error (.lastNotSlice f.name)

end FuncInfo

/-! ## Programs -/

structure Program where
  code : Array Word
  consts : Array Value
  funcs : Array FuncInfo
  fixed : Array Nat
  variadic : Array Nat
  vars : Array Var
  mainVars : Array Nat
  mainEnd : Nat

namespace Program

instance : Inhabited Program := ⟨⟨#[], #[], #[], #[], #[], #[], #[], 0⟩⟩

/-- The descriptor of a function; a number that names none is a fault. -/
def func (p : Program) (id : Nat) : Except Fault FuncInfo :=
  match p.funcs[id]? with
  | some f => .ok f
  | none => .error .outOfRange

/-- The descriptor of a variable; a number that names none is a fault. -/
def var (p : Program) (id : Nat) : Except Fault Var :=
  match p.vars[id]? with
  | some v => .ok v
  | none => .error .outOfRange

/-- The table that an instruction's index counts in. -/
def table (p : Program) (variadic : Bool) : Array Nat := if variadic then p.variadic else p.fixed

/-- The function at a place of a table, if the table is that long. -/
def tableFunc (p : Program) (variadic : Bool) (index : Nat) : Except Fault (Option FuncInfo) :=
  match (p.table variadic)[index]? with
  | some id => (p.func id).map some
  | none => .ok none

/-- The first of some variables that has the given name and lies outside of blocks. -/
def findGlobal (p : Program) (name : String) : List Nat → Except Fault (Option Var)
  | [] => .ok none
  | id :: ids => do
    let v ← p.var id
    if !v.block && v.name == .named name then return some v
    findGlobal p name ids

/-- The first variable of the main body, outside of blocks, that has the given name. -/
def global? (p : Program) (name : String) : Except Fault (Option Var) :=
  p.findGlobal name p.mainVars.toList

/-- The signature of a function: the declared one, or else that of its parameters and results. -/
def signature (p : Program) (id : Nat) : Except Fault Signature := do
  let f ← p.func id
  match f.sig with
  | some sig => return sig
  | none =>
    if f.vars.size < f.numOut then throw .outOfRange
    let results ← (f.vars.toList.take f.numOut).mapM p.var
    return ⟨f.params, results.map Var.ty, f.isVariadic⟩

end Program

end StackScript
