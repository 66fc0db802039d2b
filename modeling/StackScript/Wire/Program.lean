import StackScript.Program
import StackScript.Wire.Basic

/-!
# Program bytes

The byte form of programs, field after field in the order of `Program`. A program has one exactly
if its constants are scalars.
-/

namespace StackScript

namespace Wire

/-- Width of constructor numbers, and of numbers of functions and variables. -/
def idBits : Nat := 32

def writeTag (n : Nat) : Bytes := writeNat idBits n

def readTag : Reader Nat := readNat idBits

def refuse {α : Type} : Reader α := fun _ => none

/-! ## Types -/

def writeKind (k : Kind) : Bytes := writeTag k.code

def readKind : Reader Kind := do
  match Kind.ofCode? (← readTag) with
  | some k => return k
  | none => refuse

mutual

def writeTy : Ty → Bytes
  | .basic k => writeTag 0 ++ writeKind k
  | .any => writeTag 1
  | .slice e => writeTag 2 ++ writeTy e
  | .ptr e => writeTag 3 ++ writeTy e
  | .func s => writeTag 4 ++ writeSig s
  | .struct fs => writeTag 5 ++ writeSize fs.length ++ writeFields fs
  | .named p n t => writeTag 6 ++ writeString p ++ writeString n ++ writeTy t
termination_by structural t => t

def writeSig : Signature → Bytes
  | ⟨ps, rs, v⟩ =>
    writeSize ps.length ++ writeTys ps ++ (writeSize rs.length ++ writeTys rs) ++ writeBool v
termination_by structural s => s

def writeTys : List Ty → Bytes
  | [] => []
  | t :: ts => writeTy t ++ writeTys ts
termination_by structural ts => ts

def writeField : Field → Bytes
  | ⟨n, t⟩ => writeString n ++ writeTy t
termination_by structural f => f

def writeFields : List Field → Bytes
  | [] => []
  | f :: fs => writeField f ++ writeFields fs
termination_by structural fs => fs

end

def readSig (ty : Reader Ty) : Reader Signature := do
  let params ← readList ty
  let results ← readList ty
  return ⟨params, results, ← readBool⟩

def readField (ty : Reader Ty) : Reader Field := do
  let name ← readString
  return ⟨name, ← ty⟩

/-- A type nested no deeper than `depth`. -/
def readTyWithin : Nat → Reader Ty
  | 0 => refuse
  | depth + 1 => do
    let inner := readTyWithin depth
    match ← readTag with
    | 0 => return .basic (← readKind)
    | 1 => return .any
    | 2 => return .slice (← inner)
    | 3 => return .ptr (← inner)
    | 4 => return .func (← readSig inner)
    | 5 => return .struct (← readList (readField inner))
    | 6 => do
      let path ← readString
      let name ← readString
      return .named path name (← inner)
    | _ => refuse

/-- A type; every level of nesting takes at least one byte. -/
def readTy : Reader Ty := do readTyWithin (← get).length

/-! ## Constants -/

/-- An integer of a kind: a byte, or a number whose sign is folded in. -/
def writeInt (k : IntKind) (n : BitVec k.width) : Bytes :=
  if k.width = 8 then [UInt8.ofNat n.toNat]
  else writeNat k.width (if k.signed then zigzag n.toInt else n.toNat)

def readInt (k : IntKind) : Reader (BitVec k.width) := do
  if k.width = 8 then return BitVec.ofNat k.width (← readByte).toNat
  else
    let n ← readNat k.width
    return if k.signed then BitVec.ofInt k.width (unzigzag n) else BitVec.ofNat k.width n

def writeBinary {p : Precision} (x : Binary p) : Bytes := writeFixed (p.width / 8) x.bits.toNat

def readBinary (p : Precision) : Reader (Binary p) := do
  return ⟨BitVec.ofNat p.width (← readFixed (p.width / 8))⟩

/-- Nil has number zero, and other scalars one more than their kind. -/
def writeScalar : Scalar → Bytes
  | .nil => writeTag 0
  | .bool b => writeTag (Kind.bool.code + 1) ++ writeBool b
  | .int k n => writeTag ((Kind.int k).code + 1) ++ writeInt k n
  | .float p x => writeTag ((Kind.float p).code + 1) ++ writeBinary x
  | .complex p z => writeTag ((Kind.complex p).code + 1) ++ writeBinary z.re ++ writeBinary z.im
  | .string s => writeTag (Kind.string.code + 1) ++ writeString s

/-- A scalar of the given kind. -/
def readScalarOf : Kind → Reader Scalar
  | .bool => return .bool (← readBool)
  | .int k => return .int k (← readInt k)
  | .float p => return .float p (← readBinary p)
  | .complex p => do
    let re ← readBinary p
    return .complex p ⟨re, ← readBinary p⟩
  | .string => return .string (← readString)
  | _ => refuse

def readScalar : Reader Scalar := do
  match ← readTag with
  | 0 => return .nil
  | n + 1 =>
    match Kind.ofCode? n with
    | some k => readScalarOf k
    | none => refuse

/-! ## Variables and functions -/

def writeVarName : VarName → Bytes
  | .named s => writeTag 0 ++ writeString s
  | .positional i => writeTag 1 ++ writeSize i

def readVarName : Reader VarName := do
  match ← readTag with
  | 0 => return .named (← readString)
  | 1 => return .positional (← readSize)
  | _ => refuse

def writeVarAddr (a : VarAddr) : Bytes := writeTag a.depth ++ writeTag a.index

def readVarAddr : Reader VarAddr := do
  let depth ← readTag
  return ⟨depth, ← readTag⟩

def writeVar (v : Var) : Bytes :=
  writeVarName v.name ++ writeTy v.ty ++ writeOption writeVarAddr v.addr ++ writeBool v.block

def readVar : Reader Var := do
  let name ← readVarName
  let ty ← readTy
  let addr ← readOption readVarAddr
  return ⟨name, ty, addr, ← readBool⟩

def writeVariadicity : Variadicity → Bytes
  | .unresolved => writeTag 0
  | .fixed => writeTag 1
  | .variadic => writeTag 2

def readVariadicity : Reader Variadicity := do
  match ← readTag with
  | 0 => return .unresolved
  | 1 => return .fixed
  | 2 => return .variadic
  | _ => refuse

def writeFunc (f : FuncInfo) : Bytes :=
  writeString f.name ++ writeTag f.depth ++ writeList writeTy f.params ++
    writeVariadicity f.variadicity ++ writeSize f.numOut ++ writeList writeTag f.vars.toList ++
    writeOption writeSize f.entry ++ writeOption writeSize f.stop ++ writeOption writeSig f.sig

def readFunc : Reader FuncInfo := do
  let name ← readString
  let depth ← readTag
  let params ← readList readTy
  let variadicity ← readVariadicity
  let numOut ← readSize
  let vars ← readList readTag
  let entry ← readOption readSize
  let stop ← readOption readSize
  let sig ← readOption (readSig readTy)
  return { name, depth, params, variadicity, numOut, vars := vars.toArray, entry, stop, sig }

def readWord : Reader Word := do return BitVec.ofNat 32 (← readTag)

end Wire

namespace Program

open Wire

/-- The byte form of a program; none if a constant is not a scalar. -/
def toBytes? (p : Program) : Option Bytes := do
  let consts ← p.consts.toList.mapM Value.scalar?
  some (writeList (fun w : Word => writeTag w.toNat) p.code.toList ++
    writeList writeScalar consts ++ writeList writeFunc p.funcs.toList ++
    writeList writeTag p.fixed.toList ++ writeList writeTag p.variadic.toList ++
    writeList writeVar p.vars.toList ++ writeList writeTag p.mainVars.toList ++
    writeSize p.mainEnd)

def read : Reader Program := do
  let code ← readList readWord
  let consts ← readList readScalar
  let funcs ← readList readFunc
  let fixed ← readList readTag
  let variadic ← readList readTag
  let vars ← readList readVar
  let mainVars ← readList readTag
  let mainEnd ← readSize
  return {
    code := code.toArray
    consts := (consts.map .scalar).toArray
    funcs := funcs.toArray
    fixed := fixed.toArray
    variadic := variadic.toArray
    vars := vars.toArray
    mainVars := mainVars.toArray
    mainEnd }

/-- The program that the front of a byte string holds; what follows it is ignored. -/
def ofBytes? (bytes : Bytes) : Option Program := (read bytes).map (·.1)

end Program

end StackScript
