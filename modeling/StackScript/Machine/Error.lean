import StackScript.Evaluation
import StackScript.Number.Reading

/-!
# Run-time errors

Causes of a failed run with their wording, and the functions that were active, innermost first.
-/

namespace StackScript

/-- The class of a run-time error. -/
inductive ErrorClass
  | stackUnderflow
  | type
  | divisionByZero
  | variableNotGlobal
  | notCallable
  | arity
  | limitExceeded
  | native
  | verify
  | internal
deriving DecidableEq, Repr

/-- The fixed name of the class, for tools that read errors. -/
def ErrorClass.code : ErrorClass → String
  | stackUnderflow => "StackUnderflow"
  | type => "Type"
  | divisionByZero => "DivisionByZero"
  | variableNotGlobal => "VariableNotGlobal"
  | notCallable => "NotCallable"
  | arity => "Arity"
  | limitExceeded => "LimitExceeded"
  | native => "Native"
  | verify => "Verify"
  | internal => "Internal"

/-- What wanted more values than the stack had. -/
inductive StackUse
  | pop
  | popMany (n : Nat)
  | read (index : Nat)
  | write (index : Nat)
  | ret
  | call (name : String)
deriving DecidableEq, Repr

def StackUse.text : StackUse → String
  | pop => "pop"
  | popMany n => s!"pop of {n} values"
  | read i => s!"read of slot {i}"
  | write i => s!"write of slot {i}"
  | ret => "return"
  | call name => name

/-- What a value should have been. -/
inductive Expected
  | kind (k : Kind)
  | type (t : Ty)
  | pointer
  | struct
  | argumentCount
  | sequence

def Expected.text : Expected → String
  | kind k => k.text
  | type t => t.text
  | pointer => "pointer"
  | struct => "struct"
  | argumentCount => "argument count"
  | sequence => "string or slice"

/-- A broken program or a broken table, as a run meets it. -/
inductive Defect
  | noBody (name : String)
  | noParams (name : String)
  | paramCount (name : String) (declared actual : Nat)
  | tableIndex (index : Nat)
  | argumentSlot (below : Nat)
  | badWord (w offset : Nat)
  | inlineKind
  | constant (index : Nat)
  | slot (index : Nat)
  | addressOperand
  | operatorOperand
  | conversionKind
  | fixedFunc (index : Nat)
  | variadicFunc (index : Nat)
  | field (index : Nat)
  | scopeDistance
  | nativeFunc (addr : Nat)
  | nativeFuncv (addr : Nat)
  | nativeVar (addr : Nat)
deriving DecidableEq, Repr

def Defect.text : Defect → String
  | noBody name => s!"function {name} has no body"
  | noParams name => s!"{name} is variadic without params"
  | paramCount name declared actual =>
    s!"{name} declares {declared} params but its signature has {actual}"
  | tableIndex index => s!"no function at table index {index}"
  | argumentSlot below => s!"argument slot {below} outside the frame"
  | badWord w offset =>
    let shown := hexDigits 8 w
    s!"bad instruction 0x{shown} at {offset}"
  | inlineKind => "bad inline integer kind"
  | constant index => s!"constant {index} out of range"
  | slot index => s!"variable slot {index} out of range"
  | addressOperand => "bad address operand"
  | operatorOperand => "bad builtin operand"
  | conversionKind => "bad conversion kind"
  | fixedFunc index => s!"no fixed function {index}"
  | variadicFunc index => s!"no variadic function {index}"
  | field index => s!"field {index} out of range"
  | scopeDistance => "scope distance beyond the global context"
  | nativeFunc addr => s!"no native function at {addr}"
  | nativeFuncv addr => s!"no variadic native function at {addr}"
  | nativeVar addr => s!"no native variable at {addr}"

/-- Why a run failed. -/
inductive Cause
  | underflow (use : StackUse)
  | typeMismatch (expected : Expected) (got : Ty)
  | nilPointer
  | evaluation (e : EvalError)
  | notGlobal
  | notCallable (got : Ty)
  | nilCall
  | arity (callee : String) (expected got : Nat)
  | stepLimit (max : Nat)
  | stackLimit (max : Nat)
  | depthLimit (max : Nat) (name : String)
  | host (text : String)
  | resultCount (returned declared : Nat)
  | unverified (text : String)
  | defect (d : Defect)

namespace Cause

def errorClass : Cause → ErrorClass
  | underflow _ => .stackUnderflow
  | typeMismatch .. | nilPointer => .type
  | evaluation .divisionByZero => .divisionByZero
  | evaluation _ => .type
  | notGlobal => .variableNotGlobal
  | notCallable _ | nilCall => .notCallable
  | arity .. => .arity
  | stepLimit _ | stackLimit _ | depthLimit .. => .limitExceeded
  | host _ | resultCount .. => .native
  | unverified _ => .verify
  | defect _ => .internal

def text : Cause → String
  | underflow use => "stack underflow in " ++ use.text
  | typeMismatch expected got => "type error: expected " ++ expected.text ++ ", got " ++ got.text
  | nilPointer => "nil pointer dereference"
  | evaluation e => e.message
  | notGlobal => "variable not defined, or not a global variable"
  | notCallable got => "cannot call value of type " ++ got.text
  | nilCall => "call of nil function value"
  | arity callee expected got =>
    s!"wrong argument count in call to {callee}: expected {expected}, got {got}"
  | stepLimit max => s!"execution step limit exceeded ({max})"
  | stackLimit max => s!"stack size limit exceeded ({max})"
  | depthLimit max name =>
    s!"call depth limit exceeded ({max}) - possible infinite recursion in '{name}'"
  | host t => t
  | resultCount returned declared =>
    s!"native function returned {returned} values, signature declares {declared}"
  | unverified t => t
  | defect d => d.text

end Cause

/-- A cause with the functions that it passed through. -/
structure RuntimeError where
  cause : Cause
  trace : List String

namespace RuntimeError

def of (c : Cause) : RuntimeError := ⟨c, []⟩

/-- An error that leaves a function of the given name. -/
def within (e : RuntimeError) (name : String) : RuntimeError :=
  { e with trace := e.trace ++ [name] }

def errorClass (e : RuntimeError) : ErrorClass := e.cause.errorClass

/-- The fixed name of the error, for tools that read it. -/
def code (e : RuntimeError) : String := e.errorClass.code

def traceLines (trace : List String) : String :=
  String.join (trace.zipIdx.map fun (name, i) => s!"\n    {i}: {name}")

def message (e : RuntimeError) : String :=
  let text := "runtime error: " ++ e.cause.text
  if e.trace.isEmpty then text else text ++ "\n  call stack:" ++ traceLines e.trace

end RuntimeError

end StackScript
