import StackScript.Host.Registry

/-!
# Typed host functions

Host functions on plain data: the types of their parameters and results give the signature, read
the arguments and write the results. Reading a slice takes nil for the empty one, and writing one
makes it anew.
-/

namespace StackScript

/-- The types of data that host functions are written on. -/
inductive HostType
  | bool
  | int (k : IntKind)
  | float (p : Precision)
  | complex (p : Precision)
  | string
  | any
  | list (elem : HostType)

namespace HostType

/-- The data of a type. -/
def Data : HostType → Type
  | bool => Bool
  | int k => BitVec k.width
  | float p => Binary p
  | complex p => Complex p
  | string => String
  | any => Value
  | list t => List t.Data

/-- The type of the language that such data has. -/
def ty : HostType → Ty
  | bool => .basic .bool
  | int k => .basic (.int k)
  | float p => .basic (.float p)
  | complex p => .basic (.complex p)
  | string => .basic .string
  | any => .any
  | list t => .slice t.ty

/-- That a value is not of the kind wanted. -/
def mismatch {α : Type} (k : Kind) (v : Value) : Except Cause α :=
  .error (.typeMismatch (.kind k) v.type)

/-- The data of a value. -/
def read : (t : HostType) → Value → Except Cause t.Data
  | bool, v =>
    match v with
    | .scalar (.bool b) => .ok b
    | _ => mismatch .bool v
  | int k, v =>
    match v with
    | .scalar (.int l n) => if h : l = k then .ok (h ▸ n) else mismatch (.int k) v
    | _ => mismatch (.int k) v
  | float p, v =>
    match v with
    | .scalar (.float q x) => if h : q = p then .ok (h ▸ x) else mismatch (.float p) v
    | _ => mismatch (.float p) v
  | complex p, v =>
    match v with
    | .scalar (.complex q z) => if h : q = p then .ok (h ▸ z) else mismatch (.complex p) v
    | _ => mismatch (.complex p) v
  | string, v =>
    match v with
    | .scalar (.string s) => .ok s
    | _ => mismatch .string v
  | any, v => .ok v
  | list t, v =>
    match v with
    | .nil => .ok []
    | .slice _ _ items => items.mapM t.read
    | _ => .error (.typeMismatch (.type (list t).ty) v.type)

/-- A value for data. -/
def write : (t : HostType) → t.Data → HostTask Value
  | bool, b => pure (.bool b)
  | int k, n => pure (.scalar (.int k n))
  | float p, x => pure (.scalar (.float p x))
  | complex p, z => pure (.scalar (.complex p z))
  | string, s => pure (.string s)
  | any, v => pure v
  | list t, xs => do
    let items ← xs.mapM t.write
    HostTask.newSlice t.ty items

/-- One piece of data for each type. -/
def Tuple : List HostType → Type
  | [] => Unit
  | t :: ts => t.Data × Tuple ts

/-- The data of as many values as there are types. -/
def readAll : (ts : List HostType) → List Value → Except Cause (Tuple ts)
  | [], _ => .ok ()
  | _ :: _, [] => .error (.host "missing native argument")
  | t :: ts, v :: vs => do
    let x ← t.read v
    let xs ← readAll ts vs
    return (x, xs)

def writeAll : (ts : List HostType) → Tuple ts → HostTask (List Value)
  | [], _ => pure []
  | t :: ts, (x, xs) => do
    let v ← t.write x
    let vs ← writeAll ts xs
    return v :: vs

end HostType

/-- A typed host function. -/
structure Adapted where
  params : List HostType
  results : List HostType
  variadic : Bool
  run : HostType.Tuple params → HostTask (HostType.Tuple results)

namespace Adapted

def sig (f : Adapted) : Signature := ⟨f.params.map (·.ty), f.results.map (·.ty), f.variadic⟩

/-- Reads the arguments, runs the function and writes its results. -/
def body (f : Adapted) : HostBody := fun _ args => do
  let xs ← HostTask.ofExcept (HostType.readAll f.params args)
  let ys ← f.run xs
  HostType.writeAll f.results ys

/-- A function without effects. -/
def ofFunction (params results : List HostType)
    (f : HostType.Tuple params → HostType.Tuple results) : Adapted :=
  ⟨params, results, false, fun xs => pure (f xs)⟩

/-- A variadic function without effects; its last parameter receives the trailing arguments. -/
def ofVariadicFunction (params : List HostType) (elem : HostType) (results : List HostType)
    (f : HostType.Tuple (params ++ [.list elem]) → HostType.Tuple results) : Adapted :=
  ⟨params ++ [.list elem], results, true, fun xs => pure (f xs)⟩

end Adapted

/-! ## Sample functions -/

namespace Sample

def int : Ty := .basic (.int .int)

/-- Gives its argument back. -/
def identity (t : HostType) : Adapted := .ofFunction [t] [t] id

def sum : Adapted :=
  .ofVariadicFunction [] (.int .int) [.int .int] fun ((ns : List (BitVec 64)), ()) =>
    ((ns.foldl (· + ·) 0 : BitVec 64), ())

/-- Moves numbers between two bounds, of which the upper one wins. -/
def clamp : Adapted :=
  .ofVariadicFunction [.int .int, .int .int] (.int .int) [.list (.int .int)] fun (lo, hi, ns, ()) =>
    (ns.map fun (n : BitVec 64) =>
      let raised : BitVec 64 := if n.slt lo then lo else n
      if BitVec.slt hi raised then hi else raised, ())

end Sample

end StackScript
