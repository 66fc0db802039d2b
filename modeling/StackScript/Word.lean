import StackScript.Operator
import StackScript.Number.Reading
import StackScript.Task

/-!
# Instruction words

A word has a six-bit opcode above a twenty-six-bit operand. Operands divide further:

* a variable address is six bits of scope distance above a twenty-bit slot;
* a variadic call is a ten-bit argument count above a sixteen-bit table index;
* a closure is a flag above a twenty-five-bit table index;
* an operator application is a kind above a five-bit operator;
* an inline integer is a four-bit kind above a signed twenty-two-bit number.

The top value of a field may stand for something else than a number: the global frame, a spread
call, a return through the result variables.
-/

namespace StackScript

inductive Opcode
  | nop
  | pushInt
  | pushConst
  | pop
  | loadVar
  | storeVar
  | addrVar
  | addrOp
  | loadArg
  | storeArg
  | loadNativeVar
  | builtinOp
  | convert
  | callFunc
  | callFuncv
  | callNative
  | callNativev
  | pushNative
  | pushNativev
  | closure
  | hostClosure
  | callClosure
  | callValue
  | deref
  | field
  | ret
deriving DecidableEq, Repr, Inhabited

namespace Opcode

def all : List Opcode :=
  [nop, pushInt, pushConst, pop, loadVar, storeVar, addrVar, addrOp, loadArg, storeArg,
    loadNativeVar, builtinOp, convert, callFunc, callFuncv, callNative, callNativev, pushNative,
    pushNativev, closure, hostClosure, callClosure, callValue, deref, field, ret]

def code : Opcode → Nat
  | nop => 0
  | pushInt => 1
  | pushConst => 2
  | pop => 3
  | loadVar => 4
  | storeVar => 5
  | addrVar => 6
  | addrOp => 7
  | loadArg => 8
  | storeArg => 9
  | loadNativeVar => 10
  | builtinOp => 11
  | convert => 12
  | callFunc => 13
  | callFuncv => 14
  | callNative => 15
  | callNativev => 16
  | pushNative => 17
  | pushNativev => 18
  | closure => 19
  | hostClosure => 20
  | callClosure => 21
  | callValue => 22
  | deref => 23
  | field => 24
  | ret => 25

def ofCode? (n : Nat) : Option Opcode := all[n]?

theorem ofCode?_code (op : Opcode) : ofCode? op.code = some op := by cases op <;> rfl

def text : Opcode → String
  | nop => "Nop"
  | pushInt => "PushInt"
  | pushConst => "PushConst"
  | pop => "Pop"
  | loadVar => "LoadVar"
  | storeVar => "StoreVar"
  | addrVar => "AddrVar"
  | addrOp => "AddrOp"
  | loadArg => "LoadArg"
  | storeArg => "StoreArg"
  | loadNativeVar => "LoadNativeVar"
  | builtinOp => "BuiltinOp"
  | convert => "Convert"
  | callFunc => "CallFunc"
  | callFuncv => "CallFuncv"
  | callNative => "CallNative"
  | callNativev => "CallNativev"
  | pushNative => "PushNative"
  | pushNativev => "PushNativev"
  | closure => "Closure"
  | hostClosure => "HostClosure"
  | callClosure => "CallClosure"
  | callValue => "CallValue"
  | deref => "Deref"
  | field => "Field"
  | ret => "Return"

/-- Whether the operand refers to a function by its place in a table. -/
def refersToFunc : Opcode → Bool
  | callFunc | callFuncv | closure | hostClosure => true
  | _ => false

end Opcode

/-- One instruction as it is stored. -/
abbrev Word := BitVec 32

namespace Word

/-- Values of the operand field. -/
def operandRange : Nat := 1 <<< 26

/-- Values of the slot field of a variable address. -/
def slotRange : Nat := 1 <<< 20

/-- Values of the table index of a variadic call. -/
def tableRange : Nat := 1 <<< 16

/-- Values of the table index of a closure; the flag for a variadic one has this weight. -/
def closureRange : Nat := 1 <<< 25

/-- Values of an inline integer. -/
def inlineRange : Nat := 1 <<< 22

/-- The scope distance that stands for the global frame. -/
def globalScope : Nat := 63

/-- The argument count of a variadic call that stands for a spread slice. -/
def spreadArity : Nat := 1023

/-- The argument count of a variadic call whose surplus lies on the stack. -/
def overflowArity : Nat := 1022

/-- The operand of a dynamic call with a spread slice. -/
def spreadCall : Nat := operandRange - 1

/-- The operand of a return through the result variables. -/
def returnVars : Nat := operandRange - 1

/-! ## Fields -/

def opcode? (w : Word) : Option Opcode := Opcode.ofCode? (w.toNat / operandRange)

def operand (w : Word) : Nat := w.toNat % operandRange

/-- Scope distance and slot of a variable address. -/
def address (w : Word) : Nat × Nat := (w.operand / slotRange, w.operand % slotRange)

/-- Argument count and table index of a variadic call. -/
def variadicCall (w : Word) : Nat × Nat := (w.operand / tableRange, w.operand % tableRange)

/-- Whether a closure is variadic, and its table index. -/
def closure (w : Word) : Bool × Nat :=
  (closureRange ≤ w.operand, w.operand % closureRange)

/-- Kind and value of an inline integer. -/
def inlineInt (w : Word) : Option Kind × Int :=
  let raw := w.operand % inlineRange
  (Kind.basicOfCode? (w.operand / inlineRange),
    if raw < inlineRange / 2 then raw else (raw : Int) - inlineRange)

/-- The kind field of an operator application. -/
def operatorKind (w : Word) : Option Kind := Kind.basicOfCode? (w.operand / 32 % 32)

def operator? (w : Word) : Option Operator := Operator.ofCode? (w.operand % 32)

def addressOperator? (w : Word) : Option AddressOperator := AddressOperator.ofCode? (w.operand % 32)

/-- The kind of a conversion, from the low eight bits. -/
def conversionKind (w : Word) : Option Kind := Kind.basicOfCode? (w.operand % 256)

/-! ## Encoding -/

/-- A word of its two fields; an operand that does not fit is a fault. -/
def make (op : Opcode) (operand : Nat) : Except Fault Word :=
  if operand < operandRange then .ok (BitVec.ofNat 32 (op.code * operandRange + operand))
  else
    let shown := hexDigits 1 operand
    let name := op.text
    .error (.because s!"operand 0x{shown} overflows the 26-bit field of {name}")

/-- A word with further bits of its operand set. -/
def withOperandBits (w : Word) (bits : Nat) : Except Fault Word :=
  if bits < operandRange then .ok (w ||| BitVec.ofNat 32 bits)
  else
    let shown := hexDigits 1 bits
    .error (.because s!"patch bits 0x{shown} overflow operand")

/-- The operand of a variable address. -/
def makeAddress (scope index : Nat) : Except Fault Nat :=
  if globalScope < scope then .error (.because s!"scope distance {scope} overflows")
  else if slotRange ≤ index then .error (.because s!"variable index {index} overflows")
  else .ok (scope * slotRange + index)

def makeVar (op : Opcode) (scope index : Nat) : Except Fault Word := do
  make op (← makeAddress scope index)

/-- Whether an integer has an inline form. -/
def fitsInline (n : Int) : Bool :=
  let half : Int := (inlineRange / 2 : Nat)
  decide (-half ≤ n ∧ n < half)

def makeInt (k : Kind) (n : Int) : Except Fault Word :=
  if !k.isInteger then
    let name := k.text
    .error (.because s!"inline push of non-integer kind {name}")
  else if !fitsInline n then .error (.because s!"inline integer {n} out of range")
  else make .pushInt (k.code * inlineRange + (n % inlineRange).toNat)

def makeOperator (k : Kind) (op : Operator) : Except Fault Word :=
  make .builtinOp (k.code * 32 + op.code)

def makeAddressOperator (k : Kind) (op : AddressOperator) : Except Fault Word :=
  make .addrOp (k.code * 32 + op.code)

def makeVariadicCall (op : Opcode) (arity index : Nat) : Except Fault Word :=
  if spreadArity < arity then .error (.because s!"funcv arity {arity} overflows")
  else if tableRange ≤ index then .error (.because s!"funcv index {index} overflows")
  else make op (arity * tableRange + index)

/-! ## Text -/

/-- A word that has no opcode. -/
def badText (w : Word) : String := "<bad 0x" ++ hexDigits 8 w.toNat ++ ">"

/-- Opcode and operand. -/
def text (w : Word) : String :=
  match w.opcode? with
  | some op => op.text ++ " 0x" ++ hexDigits 1 w.operand
  | none => w.badText

end Word

end StackScript
