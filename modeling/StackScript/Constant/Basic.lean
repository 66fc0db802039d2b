import StackScript.Evaluation
import StackScript.Store
import StackScript.Text.Quoted

/-!
# Constants

A constant is a value of known kind or an untyped number. Integers of untyped constants have 128
bits. Binding gives an untyped constant a kind, and fails where the kind cannot hold it.
-/

namespace StackScript

inductive Constant
  | bound (v : Value)
  | int (n : Int)
  | float (x : Binary .double)
  | complex (z : Complex .double)

namespace Constant

instance : Inhabited Constant := ⟨int 0⟩

/-- The bound of untyped integers, which are signed numbers of 128 bits. -/
def limit : Nat := 1 <<< 127

/-- The range of untyped integers. -/
def inRange (n : Int) : Bool := -(limit : Int) ≤ n && n < limit

/-- The integer part of a float, moved into the range of untyped integers. -/
def clampReal (x : Binary .double) : Int := x.clamp (-(limit : Int)) (limit - 1)

def operandKind : Constant → OperandKind
  | bound v => .bound v.kind
  | int _ => .openInt
  | float _ => .openFloat
  | complex _ => .openComplex

def isZero : Constant → Bool
  | bound v => (v.scalar?.map Scalar.isZero).getD false
  | int n => n == 0
  | float x => x.isZero
  | complex z => z.isZero

/-- Text of a constant in messages; a string is quoted. -/
def text? (s : Store) : Constant → Option String
  | bound (.scalar (.string t)) => some (quoted t)
  | bound v => s.text? v
  | int n => some (toString n)
  | float x => some x.text
  | complex z => some z.text

end Constant

/-- Why a literal is malformed. -/
inductive LiteralError
  | integer
  | float
  | imaginary
  | imaginarySuffix
  | unterminatedCharacter
  | characterCount
  | unterminatedString
  | unescapedQuote
  | trailingBackslash
  | hexEscape
  | octalEscape
  | notCharacter
  | unknownEscape
deriving DecidableEq, Repr

namespace LiteralError

def message : LiteralError → String
  | integer => "malformed integer"
  | float => "malformed float"
  | imaginary => "malformed imaginary"
  | imaginarySuffix => "imaginary literal must end in 'i'"
  | unterminatedCharacter => "unterminated character"
  | characterCount => "character literal must hold exactly one character"
  | unterminatedString => "unterminated string"
  | unescapedQuote => "unescaped quote"
  | trailingBackslash => "trailing backslash"
  | hexEscape => "bad hex escape"
  | octalEscape => "bad octal escape"
  | notCharacter => "escape is not a valid character"
  | unknownEscape => "unknown escape sequence"

end LiteralError

/-- Why there is no such constant, or none of the kind asked for. -/
inductive ConstantError
  | overflows (n : Int) (k : Kind)
  | resultOverflows (op : Operator) (k : Kind)
  | truncated (c : Constant) (k : Kind)
  | notRepresentable (c : Constant) (k : Kind)
  | divisionByZero
  | malformed (text : String) (why : LiteralError)
  | negativeShift (count : Constant)
  | operands (e : OperandError)
  | evaluation (e : EvalError)

namespace Constant

/-- An untyped integer at a kind. -/
def bindInt (n : Int) : Kind → Except ConstantError Scalar
  | .int k => if k.Holds n then .ok (.ofInt k n) else .error (.overflows n (.int k))
  | .float p => .ok (.float p ((Binary.ofInt .double n).convert p))
  | .complex p => .ok (.complex p (.ofReal ((Binary.ofInt .double n).convert p)))
  | k => .error (.notRepresentable (.int n) k)

/-- An untyped float at a kind; an integer kind takes integers only. -/
def bindFloat (x : Binary .double) : Kind → Except ConstantError Scalar
  | .int k =>
    if x.isIntegral then bindInt (clampReal x) (.int k)
    else .error (.truncated (.float x) (.int k))
  | .float p => .ok (.float p (x.convert p))
  | .complex p => .ok (.complex p (.ofReal (x.convert p)))
  | k => .error (.notRepresentable (.float x) k)

/-- An untyped complex number at a kind; a real kind takes real numbers only. -/
def bindComplex (z : Complex .double) (k : Kind) : Except ConstantError Scalar :=
  match k with
  | .complex p => .ok (.complex p (z.convert p))
  | k => if z.im.isZero then bindFloat z.re k else .error (.notRepresentable (.complex z) k)

/-- A constant as a value of the given kind. -/
def bind (c : Constant) (k : Kind) : Except ConstantError Value :=
  match c with
  | bound v => if v.kind = k then .ok v else .error (.notRepresentable c k)
  | int n => (bindInt n k).map .scalar
  | float x => (bindFloat x k).map .scalar
  | complex z => (bindComplex z k).map .scalar

/-- A constant as a value of its default kind. -/
def bindDefault (c : Constant) : Except ConstantError Value := c.bind c.operandKind.default

end Constant

end StackScript
