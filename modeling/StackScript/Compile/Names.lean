import StackScript.Compile.Coercion
import StackScript.Host.Universe

/-!
# Names and members

What an identifier or a selector stands for, as the look-ahead sees it and as code: the two readings
of one `Named` or `Member` value.
-/

namespace StackScript

/-- What an identifier stands for. -/
inductive Named
  | var (id : Nat) (ty : Ty)
  | param (below : Nat) (ty : Ty)
  | package (path name : String)
  | func (id : Nat) (sig : Signature)
  | native (s : NativeSymbol)
  | truth (b : Bool)

/-- What a selector stands for. A field is reached through pointers. -/
inductive Member
  | native (s : NativeSymbol)
  | field (ptrs index : Nat) (ty : Ty)
  | method (f : FuncRef) (sig : Signature)

namespace Compile

/-! ## Host symbols -/

/-- The signature of a host function. -/
def nativeSignature (addr : Nat) (variadic : Bool) : Compile Signature := do
  let natives := (← read).registry.natives
  match (if variadic then natives.funcvs else natives.funcs)[addr]? with
  | some f => return f.func.sig
  | none => fail (.internal s!"native function {addr} has no entry")

/-- A host symbol as the look-ahead sees it. -/
def nativeEntry (s : NativeSymbol) : Compile Inferred := do
  match s.kind with
  | .var =>
    match (← read).registry.natives.vars[s.addr]? with
    | some v => return .value v.ty
    | none =>
      let addr := s.addr
      fail (.internal s!"native variable {addr} has no entry")
  | .func => return .func (.native s.addr false false) (← nativeSignature s.addr false)
  | .funcv => return .func (.native s.addr true false) (← nativeSignature s.addr true)

/-- Code that pushes a host symbol. -/
def emitNative (s : NativeSymbol) : Compile Unit := do
  match ← nativeEntry s with
  | .func (.native addr true _) sig => do
    asm (Assembly.pushNativev addr)
    push (.value (.func sig))
  | .func _ sig => do
    asm (Assembly.pushNative s.addr)
    push (.value (.func sig))
  | e => do
    asm (Assembly.loadNativeVar s.addr)
    push e

/-! ## Identifiers -/

/-- What a name without a declaration stands for. -/
def resolveUndeclared (name : String) : Compile Named := do
  if name = "true" then return .truth true
  if name = "false" then return .truth false
  match (← read).registry.find? Universe.path name with
  | some s => return .native s
  | none => fail (.unresolved name)

def resolveName (name : String) : Compile Named := do
  match ← find? name with
  | some (.var id) => return .var id (← asm (Assembly.var id)).ty
  | some (.param func index ty) => return .param (← paramBelow name func index) ty
  | some (.package path) => return .package path name
  | some (.func id) => return .func id (← signatureOf id)
  | none => resolveUndeclared name

/-- A name as the look-ahead sees it. -/
def namedEntry : Named → Compile Inferred
  | .var _ ty | .param _ ty => return .value ty
  | .package path name => return .package path name
  | .func id sig => return .func (.script id false) sig
  | .native s => nativeEntry s
  | .truth b => return .const (.bound (.bool b)) .pending

/-- Code that pushes a closure of a function over the current frame. -/
def emitClosure (id : Nat) (sig : Signature) : Compile Unit := do
  asm (Assembly.hostClosure id)
  push (.value (.func sig))

/-- Code that pushes what a name stands for. -/
def emitNamed : Named → Compile Unit
  | .var id ty => do
    let (scope, slot) ← varOperand id
    asm (Assembly.loadVar scope slot)
    push (.value ty)
  | .param below ty => do
    asm (Assembly.loadArg below)
    push (.value ty)
  | .package path name => push (.package path name)
  | .func id sig => emitClosure id sig
  | .native s => emitNative s
  | .truth b => pushConstant (.bound (.bool b))

/-- Stores the top value, which the shadow stack does not show any more, into a variable. -/
def emitStore (id : Nat) : Compile Unit := do
  let (scope, slot) ← varOperand id
  asm (Assembly.storeVar scope slot)

/-! ## Addresses -/

/-- The variable whose address an expression takes. -/
def addressed : Expr → Compile (Nat × Ty)
  | .ident name => do
    match ← find? name with
    | some (.var id) => return (id, (← asm (Assembly.var id)).ty)
    | some (.param ..) =>
      fail (.unsupported s!"address of parameter {name}"
        (some "copy it into a local variable first"))
    | some (.func _) | some (.package _) => fail (.unsupported s!"address of {name}" none)
    | none => fail (.unresolved name)
  | x => fail (.unsupported ("address of " ++ x.shown) none)

/-- Code that pushes the address of a variable. -/
def emitAddress (x : Expr) : Compile Unit := do
  let (id, ty) ← addressed x
  let (scope, slot) ← varOperand id
  asm (Assembly.addrVar scope slot)
  push (.value (.ptr ty))

/-- The type behind a pointer that the look-ahead has found. -/
def pointee (x : Expr) (e : Inferred) : Compile Ty :=
  match e with
  | .value t =>
    match t.kind, t.elem? with
    | .ptr, some elem => pure elem
    | _, _ => fail (.typeMismatch "pointer" t.text ("dereference of " ++ x.shown))
  | e => fail (.notAValue (e.describe .empty))

/-! ## Selectors -/

/-- The name that a method has in the package of its receiver type. -/
def methodKey (ptrs : Nat) (type name : String) : String :=
  "(" ++ "".pushn '*' ptrs ++ type ++ ")." ++ name

/-- The method of a named type, or of pointers to one. -/
def method? (t : Ty) (name : String) : Compile (Option Member) := do
  match t.stripPtrs with
  | (ptrs, .named path type _) =>
    match (← read).registry.find? path (methodKey ptrs type name) with
    | some ⟨addr, .func⟩ =>
      return some (.method (.native addr false true) (← nativeSignature addr false))
    | some ⟨addr, .funcv⟩ =>
      return some (.method (.native addr true true) (← nativeSignature addr true))
    | _ => return none
  | _ => return none

/-- What a selector on an entry stands for. -/
def resolveMember (e : Inferred) (name : String) : Compile Member := do
  match e with
  | .package path shown =>
    match (← read).registry.find? path name with
    | some s => return .native s
    | none => fail (.memberNotFound ("package " ++ shown) name)
  | .value t =>
    let (ptrs, base) := t.stripPtrs
    match base.field? name with
    | some (index, ty) => return .field ptrs index ty
    | none =>
      match ← method? t name with
      | some m => return m
      | none => fail (.memberNotFound t.text name)
  | e => fail (.memberNotFound (e.describe .empty) name)

/-- A member as the look-ahead sees it. -/
def memberEntry : Member → Compile Inferred
  | .native s => nativeEntry s
  | .field _ _ ty => return .value ty
  | .method f sig => return .func f sig

end Compile

end StackScript
