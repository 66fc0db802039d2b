import StackScript.Constant.Basic
import StackScript.Program

/-!
# Compile errors

Causes for which a file is refused, with their wording. A hint says what to write instead.
-/

namespace StackScript

inductive CompileError
  | unresolved (name : String)
  | redefined (name : String)
  | assignUndeclared (name : String)
  | invalidTarget (target : String)
  | argumentCount (callee : String) (orMore : Bool) (expected got : Nat)
  | typeMismatch (expected got context : String)
  | operands (e : OperandError)
  | constant (e : ConstantError)
  | notCallable (what : String)
  | memberNotFound (base member : String)
  | malformedReceiver (recv : Ty)
  | notAValue (what : String)
  | valueCount (targets values : Nat)
  | multiValue (what : String)
  | returnOutsideFunction
  | bareReturn (func : String)
  | returnCount (func : String) (expected got : Nat)
  | captureParameter (name : String)
  | packageNotFound (path : String)
  | unknownType (name : String)
  | unsupported (what : String) (hint : Option String)
  | build (e : BuildError)
  | internal (what : String)

namespace CompileError

/-- A failed constant as a compile error. -/
def ofConstant : ConstantError → CompileError
  | .operands e => .operands e
  | .evaluation e => .internal e.message
  | e => .constant e

def hintLine : Option String → String
  | some hint => "\n  hint: " ++ hint
  | none => ""

end CompileError

namespace OperandError

/-- The fixed name of the error, for tools that read it. -/
def code : OperandError → String
  | notDefined .. => "OperatorNotDefined"
  | shiftCount .. => "InvalidShiftCount"
  | mismatched .. => "MismatchedKinds"
  | unbound _ => "UnboundOperands"

def text : OperandError → String
  | notDefined op k => "operator " ++ op.text ++ " not defined on " ++ k.text
  | shiftCount op k => "invalid shift count of kind " ++ k.text ++ " for operator " ++ op.text
  | mismatched op k l =>
    "mismatched kinds " ++ k.text ++ " and " ++ l.text ++ " for operator " ++ op.text
  | unbound op =>
    "operator " ++ op.text ++ " needs at least one operand of known kind" ++
      CompileError.hintLine (some "bind one operand to a typed variable first")

end OperandError

namespace ConstantError

/-- The fixed name of the error, for tools that read it. -/
def code : ConstantError → String
  | overflows .. | resultOverflows .. => "ConstOverflow"
  | truncated .. => "ConstTruncated"
  | notRepresentable .. => "ConstNotRepresentable"
  | divisionByZero => "ConstDivisionByZero"
  | malformed .. | negativeShift _ => "InvalidLiteral"
  | operands e => e.code
  | evaluation _ => "Internal"

/-- Wording of a failed constant; its values are shown as the store has them. -/
def text (s : Store) : ConstantError → String
  | overflows n k => s!"constant {n} overflows " ++ k.text
  | resultOverflows op k => "constant result of " ++ op.text ++ " overflows " ++ k.text
  | truncated c k => "constant " ++ (c.text? s).getD "" ++ " truncated to " ++ k.text
  | notRepresentable c k =>
    let shown := match c with
      | .bound v => s.text? v
      | c => c.text? s
    "cannot represent constant " ++ shown.getD "" ++ " as " ++ k.text
  | divisionByZero => "constant division by zero"
  | malformed t why => "invalid literal " ++ t ++ ": " ++ why.message
  | negativeShift c => "invalid literal " ++ (c.text? s).getD "" ++ ": negative shift count"
  | operands e => e.text
  | evaluation e => "internal error: " ++ e.message

end ConstantError

namespace CompileError

/-- The fixed name of the error, for tools that read it. -/
def code : CompileError → String
  | unresolved _ => "Unresolved"
  | redefined _ => "Redefined"
  | assignUndeclared _ => "AssignUndeclared"
  | invalidTarget _ => "InvalidAssignTarget"
  | argumentCount .. => "ArityMismatch"
  | typeMismatch .. => "TypeMismatch"
  | operands e => e.code
  | constant e => e.code
  | notCallable _ => "NotCallable"
  | memberNotFound .. => "MemberNotFound"
  | malformedReceiver _ => "MalformedReceiver"
  | notAValue _ => "NotAValue"
  | valueCount .. => "ValueCount"
  | multiValue _ => "MultiValue"
  | returnOutsideFunction => "ReturnOutsideFunction"
  | bareReturn _ => "BareReturn"
  | returnCount .. => "ReturnCount"
  | captureParameter _ => "CaptureParameter"
  | packageNotFound _ => "PackageNotFound"
  | unknownType _ => "UnknownType"
  | unsupported .. => "Unsupported"
  | build _ => "Build"
  | internal _ => "Internal"

def text (s : Store) : CompileError → String
  | unresolved name => s!"undefined: {name}"
  | redefined name => s!"'{name}' redeclared in this block"
  | assignUndeclared name =>
    s!"cannot assign to undeclared name '{name}'" ++
      hintLine (some s!"use '{name} := ...' to declare a new variable")
  | invalidTarget target => s!"cannot assign to {target}"
  | argumentCount callee orMore expected got =>
    let least := if orMore then "at least " else ""
    s!"wrong argument count in call to {callee}: expected {least}{expected}, got {got}"
  | typeMismatch expected got context => s!"cannot use {got} as {expected} in {context}"
  | operands e => e.text
  | constant e => e.text s
  | notCallable what => s!"cannot call non-function {what}"
  | memberNotFound base member => s!"{base} has no field or method {member}"
  | malformedReceiver recv =>
    "malformed receiver " ++ recv.text ++
      hintLine (some "a receiver must be a named type or a pointer to one")
  | notAValue what => s!"{what} is not a value"
  | valueCount targets values => s!"assignment mismatch: {targets} variables but {values} values"
  | multiValue what => s!"multiple-value {what} in single-value context"
  | returnOutsideFunction => "return statement outside function"
  | bareReturn func =>
    s!"not enough return values in {func}" ++
      hintLine (some "a bare return requires named results")
  | returnCount func expected got =>
    s!"wrong number of return values in {func}: expected {expected}, got {got}"
  | captureParameter name =>
    s!"cannot capture parameter '{name}' of an enclosing function" ++
      hintLine (some s!"copy it into a local first: '{name}_ := {name}'")
  | packageNotFound path => s!"package \"{path}\" not found"
  | unknownType name => s!"unknown type {name}"
  | unsupported what hint => s!"{what} is not supported" ++ hintLine hint
  | build e => e.message
  | internal what => s!"internal error: {what}"

def message (s : Store) (e : CompileError) : String := "compile error: " ++ e.text s

end CompileError

end StackScript
