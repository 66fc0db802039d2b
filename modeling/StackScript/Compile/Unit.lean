import StackScript.Compile.Statement

/-!
# Compiling a file

Imports and functions are declared first. The main body comes first in the code; then the bodies of
functions follow in the order in which they were put into the queue. A literal inside a body joins
the end of the queue.
-/

namespace StackScript

namespace Compile

/-! ## Declarations -/

def declareImport (i : Import) : Compile Unit := do
  if !(← read).registry.hasPackage i.path then fail (.packageNotFound i.path)
  declare i.localName (.package i.path)

/-- Why a method cannot be declared. -/
def refuseMethod (recv : Ty) (name : String) : CompileError :=
  match recv.stripPtrs.2 with
  | .named .. =>
    .unsupported ("method declaration " ++ recv.text ++ "." ++ name)
      (some "methods are provided by native packages")
  | _ => .malformedReceiver recv

def declareFunc (d : FuncDecl) : Compile Unit := do
  match d.recv with
  | some recv => do
    let t ← ofExcept (recv.resolve (← read).registry (← get).names.find?)
    fail (refuseMethod t d.name)
  | none => do
    let sig ← resolveSignature d.ty
    let id ← newFunc d.name 1 sig
    declare d.name (.func id)
    match d.body with
    | some stmts => enqueue ⟨id, sig, d.ty, stmts, [0], []⟩
    | none => pure ()

/-! ## Bodies -/

/-- The result variables of a function. -/
def resultVars (params : List Param) (types : List Ty) : List Var :=
  (params.zip types).zipIdx.map fun ((p, t), i) =>
    .new (match p.name with
      | some name => .named name
      | none => .positional i) t false

/-- Declares the parameters and results of a function under their names. -/
def declareNames (b : WaitingBody) (results : List Nat) : Compile Unit := do
  ((b.ty.params.zip b.sig.params).zipIdx).forM fun ((p, t), i) =>
    declareNamed p.name (.param b.func i t)
  (b.ty.results.zip results).forM fun (p, id) => declareNamed p.name (.var id)

/-- Makes the frame of a function that has waited, and begins its words. Gives the result variables
and the body. -/
def beginFunc (b : WaitingBody) : Compile (List Nat × Body) := do
  asm (if b.sig.variadic then Assembly.setVariadicParams b.func b.sig.params
    else Assembly.setParams b.func b.sig.params)
  let results ← asm (Assembly.results b.func (resultVars b.ty.results b.sig.results))
  asm (Assembly.defineFunc b.func)
  let f ← asm (Assembly.func b.func)
  return (results, ⟨some b.func, f.name, f.depth, b.sig.params.length, b.sig.results,
    b.ty.results.any (·.name.isSome)⟩)

/-- Compiles a body that has waited. -/
def emitBody (b : WaitingBody) : Compile Unit := do
  let (results, body) ← beginFunc b
  inBody body b.path b.horizons do
    declareNames b results
    emitStmts b.stmts
  asm (Assembly.endFunc b.func)

/-- Compiles the bodies in the queue, at most `n` of them. -/
def emitQueue : Nat → Compile Unit
  | 0 => pure ()
  | n + 1 => do
    match (← get).queue with
    | [] => pure ()
    | b :: queue => do
      modify fun s => { s with queue }
      emitBody b
      emitQueue n

/-- Compiles a file with `labels` function literals, and gives the end of its main body. -/
def emitFile (f : File) (labels : Nat) : Compile Nat := do
  f.imports.forM declareImport
  f.funcs.forM declareFunc
  emitStmts f.stmts
  let mainEnd := (← get).asm.code.size
  emitQueue (f.funcs.length + labels)
  return mainEnd

end Compile

/-- The program of a file. With `folds`, operators on constants are applied at once. -/
def File.compile (r : Registry) (folds : Bool) (f : File) : Except (Stop CompileError) Program := do
  let (f, labels) := f.labelled
  let (mainEnd?, s) := ((Compile.emitFile f labels).run ⟨r, folds⟩).exec .initial
  match s.asm.resolve (← mainEnd?) with
  | .ok p => .ok p
  | .error (.error e) => .error (.error (.build e))
  | .error (.fault x) => .error (.fault x)

end StackScript
