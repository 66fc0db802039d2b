import StackScript.Host.Adapter

/-!
# The universe package

The functions that every program sees without an import: `print`, `println` and `len`.
-/

namespace StackScript

namespace Universe

/-- The path of the package. -/
def path : String := ""

def isString : Value → Bool
  | .scalar (.string _) => true
  | _ => false

/-- Texts one after another, with a blank between two of which neither is a string. -/
def spaced : Option Value → List Value → HostTask String
  | _, [] => pure ""
  | previous, v :: vs => do
    let text ← HostTask.text v
    let rest ← spaced (some v) vs
    let blank := match previous with
      | some u => !isString v && !isString u
      | none => false
    return (if blank then " " else "") ++ text ++ rest

/-- Writes a text and gives the count of its bytes. -/
def emit (s : String) : HostTask (HostType.Tuple [.int .int]) := do
  HostTask.write s
  return (BitVec.ofNat 64 s.utf8ByteSize, ())

def print : Adapted :=
  ⟨[.list .any], [.int .int], true, fun (args, ()) => do emit (← spaced none args)⟩

def println : Adapted :=
  ⟨[.list .any], [.int .int], true, fun (args, ()) => do
    let texts ← args.mapM HostTask.text
    emit (" ".intercalate texts ++ "\n")⟩

/-- Bytes of a string or items of a slice. -/
def len : Adapted :=
  ⟨[.any], [.int .int], false, fun (v, ()) =>
    match v with
    | .scalar (.string s) => pure (BitVec.ofNat 64 s.utf8ByteSize, ())
    | .slice _ _ items => pure (BitVec.ofNat 64 items.length, ())
    | .nil => pure (BitVec.ofNat 64 0, ())
    | v => HostTask.fail (.typeMismatch .sequence (Value.type v))⟩

end Universe

namespace Registry

/-- New host functions under the given names. -/
def newHosts (r : Registry) (funcs : List (String × Signature × HostBody)) :
    List (String × FuncValue) × Registry :=
  funcs.foldl (fun (done, r) (name, sig, body) =>
    let (f, r) := r.newHost sig body
    (done ++ [(name, f)], r)) ([], r)

/-- A registry that holds the universe package alone. -/
def withUniverse : Registry :=
  let (funcvs, r) := empty.newHosts
    [("print", Universe.print.sig, Universe.print.body),
      ("println", Universe.println.sig, Universe.println.body)]
  let (funcs, r) := r.newHosts [("len", Universe.len.sig, Universe.len.body)]
  let built := do
    let r ← r.newPackage Universe.path
    let r ← r.registerFuncvs Universe.path funcvs
    r.registerFuncs Universe.path funcs
  match built with
  | .ok r => r
  | .error _ => empty

end Registry

end StackScript
