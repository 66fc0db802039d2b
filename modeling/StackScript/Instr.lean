import StackScript.Word

/-!
# Instructions

What a word means, with its operand divided as its opcode asks. A field that names no kind or no
operator stays empty: such an instruction can be stored and shown, and fails only when it runs.
-/

namespace StackScript

/-- The frame that a variable address counts from. -/
inductive Scope
  | up (n : Nat)
  | global
deriving DecidableEq, Repr

/-- How many arguments a call brings: a number, or those of one slice. -/
inductive Arity
  | count (n : Nat)
  | spread
deriving DecidableEq, Repr

/-- The argument count field of a variadic call; an overflow leaves the surplus on the stack. -/
inductive ArityField
  | count (n : Nat)
  | overflow
  | spread
deriving DecidableEq, Repr

/-- An instruction with its operands. -/
inductive Instr
  | nop
  | pushInt (kind : Option Kind) (n : Int)
  | pushConst (index : Nat)
  | pop (n : Nat)
  | loadVar (scope : Scope) (index : Nat)
  | storeVar (scope : Scope) (index : Nat)
  | addrVar (scope : Scope) (index : Nat)
  | addrOp (kind : Option Kind) (op : Option AddressOperator)
  | loadArg (below : Nat)
  | storeArg (below : Nat)
  | loadNativeVar (addr : Nat)
  | builtinOp (kind : Option Kind) (op : Option Operator)
  | convert (kind : Option Kind)
  | callFunc (index : Nat)
  | callFuncv (arity : ArityField) (index : Nat)
  | callNative (addr : Nat)
  | callNativev (arity : ArityField) (addr : Nat)
  | pushNative (addr : Nat)
  | pushNativev (addr : Nat)
  | closure (variadic : Bool) (index : Nat)
  | hostClosure (variadic : Bool) (index : Nat)
  | callClosure (arity : Arity)
  | callValue (arity : Arity)
  | deref
  | field (index : Nat)
  | ret (n : Nat)
  | retVars
deriving DecidableEq, Repr

def Scope.ofField (n : Nat) : Scope := if n = Word.globalScope then .global else .up n

def Arity.ofOperand (n : Nat) : Arity := if n = Word.spreadCall then .spread else .count n

def ArityField.ofField (n : Nat) : ArityField :=
  if n = Word.spreadArity then .spread
  else if n = Word.overflowArity then .overflow
  else .count n

namespace Instr

/-- The instruction of an opcode with the operand of a word. -/
def ofOpcode (w : Word) : Opcode → Instr
  | .nop => nop
  | .pushInt => pushInt w.inlineInt.1 w.inlineInt.2
  | .pushConst => pushConst w.operand
  | .pop => pop w.operand
  | .loadVar => loadVar (.ofField w.address.1) w.address.2
  | .storeVar => storeVar (.ofField w.address.1) w.address.2
  | .addrVar => addrVar (.ofField w.address.1) w.address.2
  | .addrOp => addrOp w.operatorKind w.addressOperator?
  | .loadArg => loadArg w.operand
  | .storeArg => storeArg w.operand
  | .loadNativeVar => loadNativeVar w.operand
  | .builtinOp => builtinOp w.operatorKind w.operator?
  | .convert => convert w.conversionKind
  | .callFunc => callFunc w.operand
  | .callFuncv => callFuncv (.ofField w.variadicCall.1) w.variadicCall.2
  | .callNative => callNative w.operand
  | .callNativev => callNativev (.ofField w.variadicCall.1) w.variadicCall.2
  | .pushNative => pushNative w.operand
  | .pushNativev => pushNativev w.operand
  | .closure => closure w.closure.1 w.closure.2
  | .hostClosure => hostClosure w.closure.1 w.closure.2
  | .callClosure => callClosure (.ofOperand w.operand)
  | .callValue => callValue (.ofOperand w.operand)
  | .deref => deref
  | .field => field w.operand
  | .ret => if w.operand = Word.returnVars then retVars else ret w.operand

end Instr

/-- The instruction that a word stands for; none if it has no opcode. -/
def Word.decode? (w : Word) : Option Instr := w.opcode?.map (Instr.ofOpcode w)

end StackScript
