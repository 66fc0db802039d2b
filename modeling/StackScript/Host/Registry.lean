import StackScript.Host.Basic

/-!
# The registry

Packages give names to host functions, variables and types. Functions of a fixed and of a variable
number of arguments have tables of their own; an entry, once added, keeps its address.
-/

namespace StackScript

/-- A registered function with its full name. -/
structure NativeFunc where
  path : String
  name : String
  func : FuncValue

/-- A registered variable with its full name; its value is in the store. -/
structure NativeVar where
  path : String
  name : String
  ty : Ty
  cell : Place

/-- The tables that addresses count in. -/
structure Natives where
  funcs : Array NativeFunc
  funcvs : Array NativeFunc
  vars : Array NativeVar
  bodies : Array HostBody

inductive SymbolKind
  | var
  | func
  | funcv
deriving DecidableEq, Repr

def SymbolKind.text : SymbolKind → String
  | var => "var"
  | func => "func"
  | funcv => "funcv"

/-- What a name of a package stands for. -/
structure NativeSymbol where
  addr : Nat
  kind : SymbolKind
deriving DecidableEq, Repr

/-- What stands above the address of a packed symbol. -/
def SymbolKind.tag : SymbolKind → Nat
  | var => 0
  | func => 1
  | funcv => 2

namespace NativeSymbol

/-- Bits of the address of a packed symbol. -/
def addrBits : Nat := 28

/-- Packages keep a symbol as one word of thirty-two bits: its kind above its address. -/
def pack (s : NativeSymbol) : BitVec 32 := BitVec.ofNat 32 (s.addr ||| s.kind.tag <<< addrBits)

def unpack (w : BitVec 32) : NativeSymbol :=
  ⟨w.toNat % (1 <<< addrBits),
    match w.toNat >>> addrBits with
    | 0 => .var
    | 1 => .func
    | _ => .funcv⟩

end NativeSymbol

/-- The packed symbols and the types of a package by name. -/
structure Package where
  symbols : List (String × BitVec 32)
  types : List (String × Ty)

structure Registry where
  packages : List (String × Package)
  natives : Natives

/-- Why a registration was refused. -/
inductive RegistryError
  | duplicatePackage (path : String)
  | duplicateSymbol (path name : String)
  | duplicateType (path name : String)
  | unnamedType (path : String) (ty : Ty)
  | expectedFixed (path name : String)
  | expectedVariadic (path name : String)
  | unknownPackage (path : String)

namespace RegistryError

/-- The fixed name of the error, for tools that read it. -/
def code : RegistryError → String
  | duplicatePackage _ => "DuplicatePackage"
  | duplicateSymbol .. => "DuplicateSymbol"
  | duplicateType .. => "DuplicateType"
  | unnamedType .. => "UnnamedType"
  | expectedFixed .. => "ExpectedFixed"
  | expectedVariadic .. => "ExpectedVariadic"
  | unknownPackage _ => "UnknownPackage"

def message : RegistryError → String
  | duplicatePackage path => s!"native package \"{path}\" is already registered"
  | duplicateSymbol path name => s!"native package \"{path}\": symbol {name} registered twice"
  | duplicateType path name => s!"native package \"{path}\": type {name} registered twice"
  | unnamedType path ty =>
    let shown := ty.text
    s!"native package \"{path}\": only named types can be registered, got {shown}"
  | expectedFixed path name =>
    s!"native package \"{path}\": {name} is variadic, use register_funcvs"
  | expectedVariadic path name =>
    s!"native package \"{path}\": {name} is not variadic, use register_funcs"
  | unknownPackage path => s!"native package \"{path}\" is not registered"

end RegistryError

namespace Natives

def empty : Natives := ⟨#[], #[], #[], #[]⟩

/-- Parameter and result counts of a function. -/
def counts (f : NativeFunc) : Nat × Nat := (f.func.sig.params.length, f.func.sig.results.length)

def funcCounts? (n : Natives) (addr : Nat) : Option (Nat × Nat) := n.funcs[addr]?.map counts

def funcvCounts? (n : Natives) (addr : Nat) : Option (Nat × Nat) := n.funcvs[addr]?.map counts

end Natives

namespace Registry

def empty : Registry := ⟨[], .empty⟩

instance : Inhabited Registry := ⟨empty⟩

def package? (r : Registry) (path : String) : Option Package := r.packages.lookup path

def hasPackage (r : Registry) (path : String) : Bool := (r.package? path).isSome

/-- What a name of a package stands for. -/
def find? (r : Registry) (path name : String) : Option NativeSymbol :=
  ((r.package? path).bind (·.symbols.lookup name)).map .unpack

def findKind? (r : Registry) (path name : String) (k : SymbolKind) : Option Nat :=
  ((r.find? path name).filter (·.kind == k)).map (·.addr)

def findType? (r : Registry) (path name : String) : Option Ty :=
  (r.package? path).bind (·.types.lookup name)

/-- A new host function. -/
def newHost (r : Registry) (sig : Signature) (body : HostBody) : FuncValue × Registry :=
  (⟨sig, .host r.natives.bodies.size⟩,
    { r with natives := { r.natives with bodies := r.natives.bodies.push body } })

def newPackage (r : Registry) (path : String) : Except RegistryError Registry :=
  if r.hasPackage path then .error (.duplicatePackage path)
  else .ok { r with packages := r.packages ++ [(path, ⟨[], []⟩)] }

/-- Changes the package at a path. -/
def updatePackage (r : Registry) (path : String) (change : Package → Package) : Registry :=
  { r with packages := r.packages.map fun (p, pkg) => (p, if p = path then change pkg else pkg) }

/-- The first name that is taken, by the package or by an earlier name. -/
def taken? (pkg : Package) : List String → List String → Option String
  | _, [] => none
  | seen, name :: names =>
    if (pkg.symbols.lookup name).isSome || seen.contains name then some name
    else taken? pkg (name :: seen) names

/-- That a package has room for the given names. -/
def checkFresh (r : Registry) (path : String) (names : List String) : Except RegistryError Unit :=
  match r.package? path with
  | none => .error (.unknownPackage path)
  | some pkg =>
    match taken? pkg [] names with
    | some name => .error (.duplicateSymbol path name)
    | none => .ok ()

def addSymbol (r : Registry) (path name : String) (s : NativeSymbol) : Registry :=
  r.updatePackage path fun pkg => { pkg with symbols := pkg.symbols ++ [(name, s.pack)] }

def addFunc (path : String) (r : Registry) (entry : String × FuncValue) : Registry :=
  let (name, func) := entry
  let r' := r.addSymbol path name ⟨r.natives.funcs.size, .func⟩
  { r' with natives := { r'.natives with funcs := r'.natives.funcs.push ⟨path, name, func⟩ } }

def addFuncv (path : String) (r : Registry) (entry : String × FuncValue) : Registry :=
  let (name, func) := entry
  let r' := r.addSymbol path name ⟨r.natives.funcvs.size, .funcv⟩
  { r' with natives := { r'.natives with funcvs := r'.natives.funcvs.push ⟨path, name, func⟩ } }

def addVar (path : String) (r : Registry) (entry : String × Ty × Place) : Registry :=
  let (name, ty, cell) := entry
  let r' := r.addSymbol path name ⟨r.natives.vars.size, .var⟩
  { r' with natives := { r'.natives with vars := r'.natives.vars.push ⟨path, name, ty, cell⟩ } }

/-- Registers functions of a fixed number of arguments, all or none. -/
def registerFuncs (r : Registry) (path : String) (funcs : List (String × FuncValue)) :
    Except RegistryError Registry := do
  r.checkFresh path (funcs.map (·.1))
  match funcs.find? (·.2.sig.variadic) with
  | some (name, _) => throw (.expectedFixed path name)
  | none => return funcs.foldl (addFunc path) r

/-- Registers variadic functions, all or none. -/
def registerFuncvs (r : Registry) (path : String) (funcs : List (String × FuncValue)) :
    Except RegistryError Registry := do
  r.checkFresh path (funcs.map (·.1))
  match funcs.find? (!·.2.sig.variadic) with
  | some (name, _) => throw (.expectedVariadic path name)
  | none => return funcs.foldl (addFuncv path) r

/-- Registers variables, all or none. -/
def registerVars (r : Registry) (path : String) (vars : List (String × Ty × Place)) :
    Except RegistryError Registry := do
  r.checkFresh path (vars.map (·.1))
  return vars.foldl (addVar path) r

/-- The types of a batch with their names, which a package must not have yet. -/
def namedTypes (path : String) (pkg : Package) :
    List (String × Ty) → List Ty → Except RegistryError (List (String × Ty))
  | done, [] => .ok done
  | done, t :: ts =>
    match t with
    | .named _ name _ =>
      if (pkg.types.lookup name).isSome || (done.lookup name).isSome then
        .error (.duplicateType path name)
      else namedTypes path pkg (done ++ [(name, t)]) ts
    | _ => .error (.unnamedType path t)

/-- Registers named types under their own names, all or none. -/
def registerTypes (r : Registry) (path : String) (types : List Ty) :
    Except RegistryError Registry := do
  match r.package? path with
  | none => throw (.unknownPackage path)
  | some pkg =>
    let named ← namedTypes path pkg [] types
    return r.updatePackage path fun pkg => { pkg with types := pkg.types ++ named }

end Registry

/-! ## Calls -/

namespace Natives

/-- Calls of host functions from host functions nest no deeper than this: the host's own stack. -/
def hostNesting : Nat := 10000

/-- That arguments are as many as a signature declares, and fit. -/
def checkArgs (sig : Signature) (args : List Value) : Except Cause Unit :=
  if args.length ≠ sig.params.length then
    .error (.arity sig.text sig.params.length args.length)
  else
    match (args.zip sig.params).find? fun (v, t) => !v.fits t with
    | some (v, t) => .error (.typeMismatch (.type t) v.type)
    | none => .ok ()

/-- Calls a function value, with `script` to run a script function, and `room` for calls of host
functions from host functions. -/
def invoke (n : Natives) (script : Closure → List Value → HostTask (List Value)) :
    Nat → Invoker
  | 0, _, _ => Task.fault .outOfRange
  | room + 1, f, args => do
    HostTask.ofExcept (checkArgs f.sig args)
    let results ← match f.callee with
      | .script c => script c args
      | .host i => do
        let body ← Task.expect n.bodies[i]?
        body (n.invoke script room) args
    if results.length ≠ f.sig.results.length then
      HostTask.fail (.resultCount results.length f.sig.results.length)
    return results

end Natives

end StackScript
