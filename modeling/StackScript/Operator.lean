import StackScript.Kind

/-!
# Operators

The binary operators with their typing profiles, the operators on addresses, and the choice of
operand kinds. Operators are numbered in the order of `Operator.all`.
-/

namespace StackScript

/-- The binary operators. -/
inductive Operator
  | add
  | sub
  | mul
  | quo
  | rem
  | and
  | or
  | xor
  | andNot
  | shl
  | shr
  | lt
  | le
  | gt
  | ge
  | eq
  | ne
  | logicalAnd
  | logicalOr
deriving DecidableEq, Repr, Inhabited

namespace Operator

def all : List Operator :=
  [add, sub, mul, quo, rem, and, or, xor, andNot, shl, shr, lt, le, gt, ge, eq, ne, logicalAnd,
    logicalOr]

def code : Operator → Nat
  | add => 0
  | sub => 1
  | mul => 2
  | quo => 3
  | rem => 4
  | and => 5
  | or => 6
  | xor => 7
  | andNot => 8
  | shl => 9
  | shr => 10
  | lt => 11
  | le => 12
  | gt => 13
  | ge => 14
  | eq => 15
  | ne => 16
  | logicalAnd => 17
  | logicalOr => 18

def ofCode? (n : Nat) : Option Operator := all[n]?

theorem ofCode?_code (op : Operator) : ofCode? op.code = some op := by cases op <;> rfl

def text : Operator → String
  | add => "+"
  | sub => "-"
  | mul => "*"
  | quo => "/"
  | rem => "%"
  | and => "&"
  | or => "|"
  | xor => "^"
  | andNot => "&^"
  | shl => "<<"
  | shr => ">>"
  | lt => "<"
  | le => "<="
  | gt => ">"
  | ge => ">="
  | eq => "=="
  | ne => "!="
  | logicalAnd => "&&"
  | logicalOr => "||"

/-- Whether an operator is defined on operands of a kind. -/
def definedOn (op : Operator) (k : Kind) : Bool :=
  match op with
  | add => k.isNumeric || k == .string
  | sub | mul | quo => k.isNumeric
  | rem | and | or | xor | andNot | shl | shr => k.isInteger
  | lt | le | gt | ge => k.isInteger || k.isFloat || k == .string
  | eq | ne => k.isNumeric || k == .string || k == .bool
  | logicalAnd | logicalOr => k == .bool

/-- The second operand of a shift is a count of any integer kind. -/
def isShift : Operator → Bool
  | shl | shr => true
  | _ => false

def isComparison : Operator → Bool
  | lt | le | gt | ge | eq | ne => true
  | _ => false

/-- Whether operands of different rank are brought to the higher one. -/
def widens : Operator → Bool
  | add | sub | mul | quo | lt | le | gt | ge | eq | ne => true
  | _ => false

def resultKind (op : Operator) (operand : Kind) : Kind :=
  if op.isComparison then .bool else operand

/-- The kinds that an operator is defined on, one bit each. -/
def kindMask (op : Operator) : Nat :=
  (Kind.all.filter op.definedOn).foldl (fun mask k => mask ||| k.bit) 0

/-- Whether the operator combines with an assignment. -/
def hasUpdateForm (op : Operator) : Bool := op.code ≤ shr.code

end Operator

/-! ## Operators on addresses -/

/-- What an instruction does through a pointer. -/
inductive AddressOperator
  | load
  | store
  | increment
  | decrement
  | update (op : Operator)
deriving DecidableEq, Repr, Inhabited

namespace AddressOperator

def code : AddressOperator → Nat
  | load => 0
  | store => 1
  | increment => 2
  | decrement => 3
  | update op => 4 + op.code

/-- The operator with a code. Above the first four only the low eight bits of the operator count. -/
def ofCode? : Nat → Option AddressOperator
  | 0 => some load
  | 1 => some store
  | 2 => some increment
  | 3 => some decrement
  | n + 4 => ((Operator.ofCode? (n % 256)).filter Operator.hasUpdateForm).map update

/-- Values taken from the stack, the pointer included, and values left there. -/
def stackEffect : AddressOperator → Nat × Nat
  | load => (1, 1)
  | store | update _ => (2, 0)
  | increment | decrement => (1, 0)

def text : AddressOperator → String
  | load => "*"
  | store => "="
  | increment => "++"
  | decrement => "--"
  | update op => op.text ++ "="

end AddressOperator

/-! ## Operand kinds -/

/-- Why operands do not go with an operator. -/
inductive OperandError
  | notDefined (op : Operator) (k : Kind)
  | shiftCount (op : Operator) (k : Kind)
  | mismatched (op : Operator) (left right : Kind)
  | unbound (op : Operator)
deriving DecidableEq, Repr

/-- The kind an operator works at, what its operands must become, and the kind of its result. A
missing second kind leaves a shift count as it is. -/
structure Resolution where
  operand : Kind
  first : Kind
  second : Option Kind
  result : Kind
deriving DecidableEq, Repr

namespace Operator

/-- The common kind of two operands of a known and an open kind. -/
def widenOpen (op : Operator) (k : Kind) (other : OperandKind) : Kind :=
  if op.widens ∧ 0 < k.rank ∧ k.rank < other.rank then other.default else k

/-- The common kind of two operands. -/
def commonKind (op : Operator) : OperandKind → OperandKind → Except OperandError Kind
  | .bound k, .bound l =>
    if k = l then .ok k
    else if op.widens ∧ 0 < k.rank ∧ 0 < l.rank ∧ k.rank ≠ l.rank then
      .ok (if l.rank < k.rank then k else l)
    else .error (.mismatched op k l)
  | .bound k, y => .ok (op.widenOpen k y)
  | x, .bound l => .ok (op.widenOpen l x)
  | _, _ => .error (.unbound op)

/-- The kind that a shift works at: an open operand must hold an integer. -/
def shiftKind : OperandKind → Kind
  | .openFloat | .openComplex => .int .int
  | x => x.default

/-- What the count of a shift must become. -/
def countKind (op : Operator) : OperandKind → Except OperandError (Option Kind)
  | .bound (.int _) => .ok none
  | .bound k => .error (.shiftCount op k)
  | _ => .ok (some (.int .uint))

/-- Chooses the kinds for an operator on operands of the given kinds. -/
def resolve (op : Operator) (x y : OperandKind) : Except OperandError Resolution :=
  if op.isShift then do
    let k := shiftKind x
    if !op.definedOn k then throw (.notDefined op k)
    let count ← op.countKind y
    return ⟨k, k, count, op.resultKind k⟩
  else do
    let k ← op.commonKind x y
    if !op.definedOn k then throw (.notDefined op k)
    return ⟨k, k, some k, op.resultKind k⟩

end Operator

end StackScript
