import StackScript.Kind
import StackScript.Number.Shortest

/-!
# Scalars

Values without parts or identity: nil, booleans, numbers and strings. These are the values that
program bytes can hold. Integers are bit patterns of the width of their kind.
-/

namespace StackScript

inductive Scalar
  | nil
  | bool (b : Bool)
  | int (k : IntKind) (n : BitVec k.width)
  | float (p : Precision) (x : Binary p)
  | complex (p : Precision) (z : Complex p)
  | string (s : String)
deriving DecidableEq, Inhabited

/-- The integer that a bit pattern of a kind stands for. -/
def IntKind.toInt (k : IntKind) (n : BitVec k.width) : Int :=
  if k.signed then n.toInt else n.toNat

namespace Scalar

/-- An integer reduced into the range of its kind. -/
def ofInt (k : IntKind) (n : Int) : Scalar := int k (BitVec.ofInt k.width n)

/-- The zero of a kind; nil where the kind is not basic. -/
def zero : Kind → Scalar
  | .bool => bool false
  | .int k => int k 0
  | .float p => float p (Binary.zero p)
  | .complex p => complex p (Complex.zero p)
  | .string => string ""
  | _ => nil

def kind : Scalar → Kind
  | nil => .interface
  | bool _ => .bool
  | int k _ => .int k
  | float p _ => .float p
  | complex p _ => .complex p
  | string _ => .string

/-- The value of an integer. -/
def int? : Scalar → Option Int
  | int k n => some (k.toInt n)
  | _ => none

/-- The value of an integer of a signed kind. -/
def signed? : Scalar → Option Int
  | int k n => if k.signed then some (k.toInt n) else none
  | _ => none

/-- The value of an integer of an unsigned kind. -/
def unsigned? : Scalar → Option Int
  | int k n => if k.signed then none else some (k.toInt n)
  | _ => none

/-- The value of a float, at double precision. -/
def real? : Scalar → Option (Binary .double)
  | float _ x => some (x.convert .double)
  | _ => none

/-- The value of a complex number, at double precision. -/
def complex? : Scalar → Option (Complex .double)
  | complex _ z => some (z.convert .double)
  | _ => none

def string? : Scalar → Option String
  | string s => some s
  | _ => none

/-- The number zero, of whatever kind. -/
def isZero : Scalar → Bool
  | int _ n => n == 0
  | float _ x => x.isZero
  | complex _ z => z.isZero
  | _ => false

/-! ## Equality -/

/-- Equality of the language: kinds agree, and floats compare as numbers. -/
def equal : Scalar → Scalar → Bool
  | nil, nil => true
  | bool a, bool b => a == b
  | int k m, int l n => k == l && k.toInt m == l.toInt n
  | float .single x, float .single y => x.eq y
  | float .double x, float .double y => x.eq y
  | complex .single x, complex .single y => x.eq y
  | complex .double x, complex .double y => x.eq y
  | string s, string t => s == t
  | _, _ => false

/-! ## Conversion -/

/-- An integer read at a kind: by rounding, or modulo the width. -/
def convertInt (n : Int) : Kind → Option Scalar
  | .int k => some (ofInt k n)
  | .float p => some (float p (Binary.ofInt p n))
  | .complex p => some (complex p ((Complex.ofReal (Binary.ofInt .double n)).convert p))
  | _ => none

/-- A float read at a kind; for an integer kind it is first moved into the widest range of that
sign. -/
def convertReal (x : Binary .double) : Kind → Option Scalar
  | .int k =>
    let widest : IntKind := if k.signed then .int64 else .uint64
    some (ofInt k (x.clamp widest.least widest.greatest))
  | .float p => some (float p (x.convert p))
  | .complex p => some (complex p ((Complex.ofReal x).convert p))
  | _ => none

/-- A scalar read at another kind, where there is such a conversion. -/
def convert (s : Scalar) (k : Kind) : Option Scalar :=
  if s.kind = k then some s else
  match s with
  | int i n => convertInt (i.toInt n) k
  | float _ x => convertReal (x.convert .double) k
  | complex _ z =>
    match k with
    | .complex p => some (complex p (z.convert p))
    | _ => none
  | _ => none

/-! ## Text -/

def text : Scalar → String
  | nil => "<nil>"
  | bool b => if b then "true" else "false"
  | int k n => toString (k.toInt n)
  | float _ x => x.text
  | complex _ z => z.text
  | string s => s

end Scalar

end StackScript
