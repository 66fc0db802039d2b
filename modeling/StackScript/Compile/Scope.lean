import StackScript.Compile.Error
import StackScript.Host.Registry
import StackScript.Tree

/-!
# Names in scope

Blocks keep what they declare for as long as the file is compiled, and declarations are numbered. The
body of a function literal is compiled long after the place where the literal stands, when the blocks
around it may have gained names. So the literal takes a horizon along: the number of declarations
that there were, which holds from the outermost block of its creator on.
-/

namespace StackScript

/-- What a name stands for. -/
inductive Symbol
  | var (id : Nat)
  | param (func index : Nat) (ty : Ty)
  | package (path : String)
  | func (id : Nat)

/-- What a block declares under each name, with the number of the declaration. -/
abbrev Block := List (String × Symbol × Nat)

/-- In blocks from `floor` on, only declarations up to number `limit` are seen. -/
structure Horizon where
  floor : Nat
  limit : Nat
deriving DecidableEq, Repr

/-- Whether a declaration of a block is seen through horizons: the innermost one that holds for the
block decides. -/
def Horizon.allows (horizons : List Horizon) (block number : Nat) : Bool :=
  match horizons.reverse.find? fun h => decide (h.floor ≤ block) with
  | some h => decide (number ≤ h.limit)
  | none => true

/-- All blocks in the order in which they were opened, and the place from which names are looked
up. -/
structure NameTable where
  blocks : Array Block
  /-- Declarations so far. -/
  count : Nat
  /-- Blocks around the place, the innermost first. -/
  path : List Nat
  /-- The outermost block of the body that the place belongs to. -/
  floor : Nat
  /-- Horizons of the bodies around that one, the innermost last. -/
  horizons : List Horizon

namespace NameTable

/-- One block without declarations. -/
def initial : NameTable := ⟨#[[]], 0, [0], 0, []⟩

instance : Inhabited NameTable := ⟨initial⟩

/-- Whether a declaration of a block around the place is seen from there. -/
def sees (t : NameTable) (block number : Nat) : Bool :=
  decide (t.floor ≤ block) || Horizon.allows t.horizons block number

/-- What a block declares under a name, if that is seen. -/
def own? (t : NameTable) (name : String) (block : Nat) : Option Symbol :=
  match (t.blocks[block]?.getD []).lookup name with
  | some (x, number) => if t.sees block number then some x else none
  | none => none

/-- The innermost declaration of a name that is seen. -/
def find? (t : NameTable) (name : String) : Option Symbol := t.path.findSome? (t.own? name)

/-- Whether the innermost block declares the name. -/
def declares (t : NameTable) (name : String) : Bool :=
  match t.path with
  | block :: _ => ((t.blocks[block]?.getD []).lookup name).isSome
  | [] => false

/-- Adds a declaration to the innermost block. -/
def declare (t : NameTable) (name : String) (x : Symbol) : NameTable :=
  match t.path with
  | block :: _ =>
    { t with
      blocks := t.blocks.modify block ((name, x, t.count + 1) :: ·)
      count := t.count + 1 }
  | [] => t

/-- Opens a block at the place. -/
def openBlock (t : NameTable) : NameTable :=
  { t with blocks := t.blocks.push [], path := t.blocks.size :: t.path }

/-- Leaves the innermost block. -/
def closeBlock (t : NameTable) : NameTable := { t with path := t.path.tail }

/-- Whether the place is in a block within its body. -/
def inInner (t : NameTable) : Bool := t.path.head? != some t.floor

/-- The horizons of a body that is created at the place. -/
def horizonsHere (t : NameTable) : List Horizon := t.horizons ++ [⟨t.floor, t.count⟩]

/-- The outermost block of a body that lies in the blocks of a path. -/
def enterBody (t : NameTable) (path : List Nat) (horizons : List Horizon) : NameTable :=
  { t with blocks := t.blocks.push [], path := t.blocks.size :: path, floor := t.blocks.size, horizons }

/-- The place where another table looks names up. -/
def returnTo (t old : NameTable) : NameTable :=
  { t with path := old.path, floor := old.floor, horizons := old.horizons }

end NameTable

/-! ## Type expressions -/

/-- The types that have a name everywhere. -/
def predeclaredType? : String → Option Ty
  | "any" => some .any
  | "rune" => some (.basic (.int .int32))
  | "byte" => some (.basic (.int .uint8))
  | name => ((Kind.ofText? name).filter Kind.isBasic).map .basic

/-- The parameters of a variadic function, of which the last receives the trailing arguments. -/
def packLast (params : List Ty) : Except CompileError (List Ty) :=
  match params.getLast? with
  | some last => .ok (params.dropLast ++ [.slice last])
  | none => .error (.unsupported "variadic signature without parameters" none)

/-- The type with a name of an imported package. -/
def qualifiedType (r : Registry) (find : String → Option Symbol) (package name : String) :
    Except CompileError Ty :=
  let found := match find package with
    | some (.package path) => r.findType? path name
    | _ => none
  match found with
  | some t => .ok t
  | none => .error (.unknownType s!"{package}.{name}")

mutual

/-- The type that a type expression denotes, where `find` looks names up. -/
def TypeExpr.resolve (r : Registry) (find : String → Option Symbol) :
    TypeExpr → Except CompileError Ty
  | .name name =>
    match predeclaredType? name with
    | some t => .ok t
    | none => .error (.unknownType name)
  | .qualified package name => qualifiedType r find package name
  | .slice elem => do return .slice (← elem.resolve r find)
  | .ptr elem => do return .ptr (← elem.resolve r find)
  | .func ty => do return .func (← ty.resolve r find)
termination_by structural t => t

def FuncTypeExpr.resolve (r : Registry) (find : String → Option Symbol) :
    FuncTypeExpr → Except CompileError Signature
  | ⟨params, variadic, results⟩ => do
    let params ← resolveParams r find params
    let params ← if variadic then packLast params else pure params
    let results ← resolveParams r find results
    return ⟨params, results, variadic⟩
termination_by structural t => t

def Param.resolve (r : Registry) (find : String → Option Symbol) : Param → Except CompileError Ty
  | ⟨_, ty⟩ => ty.resolve r find
termination_by structural p => p

def resolveParams (r : Registry) (find : String → Option Symbol) :
    List Param → Except CompileError (List Ty)
  | [] => .ok []
  | p :: ps => do
    let t ← p.resolve r find
    return t :: (← resolveParams r find ps)
termination_by structural ps => ps

end

end StackScript
