import StackScript.Number.Nearest

/-!
# Kinds

A kind classifies values by representation. Kinds are numbered in the order in which instruction
words and program bytes count them; the basic ones come first.
-/

namespace StackScript

/-- The integer kinds. `int` and `uint` have 64 bits. -/
inductive IntKind
  | int
  | int8
  | int16
  | int32
  | int64
  | uint
  | uint8
  | uint16
  | uint32
  | uint64
deriving DecidableEq, Repr, Inhabited

namespace IntKind

def signed : IntKind → Bool
  | int | int8 | int16 | int32 | int64 => true
  | _ => false

def width : IntKind → Nat
  | int | int64 | uint | uint64 => 64
  | int8 | uint8 => 8
  | int16 | uint16 => 16
  | int32 | uint32 => 32

/-- How many integers a kind has. -/
def count (k : IntKind) : Nat := 1 <<< k.width

/-- The least integer of a kind. -/
def least (k : IntKind) : Int := if k.signed then -((k.count / 2 : Nat) : Int) else 0

/-- The greatest integer of a kind. -/
def greatest (k : IntKind) : Int :=
  if k.signed then ((k.count / 2 : Nat) : Int) - 1 else (k.count : Int) - 1

/-- Whether an integer belongs to a kind. -/
def Holds (k : IntKind) (n : Int) : Prop := k.least ≤ n ∧ n ≤ k.greatest

instance (k : IntKind) (n : Int) : Decidable (k.Holds n) := by unfold Holds; infer_instance

def code : IntKind → Nat
  | int => 1
  | int8 => 2
  | int16 => 3
  | int32 => 4
  | int64 => 5
  | uint => 6
  | uint8 => 7
  | uint16 => 8
  | uint32 => 9
  | uint64 => 10

def text : IntKind → String
  | int => "int"
  | int8 => "int8"
  | int16 => "int16"
  | int32 => "int32"
  | int64 => "int64"
  | uint => "uint"
  | uint8 => "uint8"
  | uint16 => "uint16"
  | uint32 => "uint32"
  | uint64 => "uint64"

end IntKind

/-- The kinds of values. -/
inductive Kind
  | bool
  | int (k : IntKind)
  | float (p : Precision)
  | complex (p : Precision)
  | string
  | slice
  | ptr
  | func
  | struct
  | interface
deriving DecidableEq, Repr, Inhabited

namespace Kind

def code : Kind → Nat
  | bool => 0
  | int k => k.code
  | float .single => 11
  | float .double => 12
  | complex .single => 13
  | complex .double => 14
  | string => 15
  | slice => 16
  | ptr => 17
  | func => 18
  | struct => 19
  | interface => 20

/-- All kinds, at the index of their code. -/
def all : List Kind :=
  [bool, int .int, int .int8, int .int16, int .int32, int .int64, int .uint, int .uint8,
    int .uint16, int .uint32, int .uint64, float .single, float .double, complex .single,
    complex .double, string, slice, ptr, func, struct, interface]

def ofCode? (n : Nat) : Option Kind := all[n]?

theorem ofCode?_code (k : Kind) : ofCode? k.code = some k := by
  rcases k with _ | ⟨_ | _⟩ | ⟨_ | _⟩ | ⟨_ | _⟩ | _ | _ | _ | _ | _ | _ <;> rfl

/-- Booleans, numbers and strings. -/
def isBasic : Kind → Bool
  | bool | int _ | float _ | complex _ | string => true
  | _ => false

/-- The basic kind with the given code: what an instruction word can name. -/
def basicOfCode? (n : Nat) : Option Kind := (ofCode? n).filter isBasic

def isSigned : Kind → Bool
  | int k => k.signed
  | _ => false

def isUnsigned : Kind → Bool
  | int k => !k.signed
  | _ => false

def isInteger : Kind → Bool
  | int _ => true
  | _ => false

def isFloat : Kind → Bool
  | float _ => true
  | _ => false

def isComplex : Kind → Bool
  | complex _ => true
  | _ => false

/-- Orders integers, floats and complex numbers; zero for what is not a number. -/
def rank : Kind → Nat
  | int _ => 1
  | float _ => 2
  | complex _ => 3
  | _ => 0

def isNumeric (k : Kind) : Bool := 0 < k.rank

/-- The kind as one bit of a mask. -/
def bit (k : Kind) : Nat := 1 <<< k.code

def text : Kind → String
  | bool => "bool"
  | int k => k.text
  | float .single => "float32"
  | float .double => "float64"
  | complex .single => "complex64"
  | complex .double => "complex128"
  | string => "string"
  | slice => "slice"
  | ptr => "ptr"
  | func => "func"
  | struct => "struct"
  | interface => "interface"

def ofText? (s : String) : Option Kind := all.find? (·.text = s)

end Kind

/-! ## Operand kinds -/

/-- The kind of an operand: known, or still open because the operand is an untyped constant. -/
inductive OperandKind
  | bound (k : Kind)
  | openInt
  | openFloat
  | openComplex
deriving DecidableEq, Repr, Inhabited

namespace OperandKind

def isBound : OperandKind → Bool
  | bound _ => true
  | _ => false

/-- The kind that an open operand takes when nothing else decides. -/
def default : OperandKind → Kind
  | bound k => k
  | openInt => .int .int
  | openFloat => .float .double
  | openComplex => .complex .double

def rank : OperandKind → Nat
  | bound k => k.rank
  | openInt => 1
  | openFloat => 2
  | openComplex => 3

def text : OperandKind → String
  | bound k => k.text
  | openInt => "untyped int"
  | openFloat => "untyped float"
  | openComplex => "untyped complex"

end OperandKind

end StackScript
