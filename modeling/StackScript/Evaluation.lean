import StackScript.Operator
import StackScript.Value

/-!
# Operators on values

What a binary operator yields on two values of its operand kind. Integers wrap around at their
width, a shift count may be any integer that is not negative, and strings compare by their bytes.
-/

namespace StackScript

/-- Why an operator yields nothing. -/
inductive EvalError
  | mismatch (expected : Kind) (got : Ty)
  | notDefined (op : Operator) (k : Kind)
  | divisionByZero
  | negativeShift (n : Int)
  | badCount (got : Ty)

namespace EvalError

def message : EvalError → String
  | mismatch k t => "type error: expected " ++ k.text ++ ", got " ++ t.text
  | notDefined op k => "operator " ++ op.text ++ " not defined on " ++ k.text
  | divisionByZero => "integer divide by zero"
  | negativeShift n => s!"negative shift amount {n}"
  | badCount t => "type error: expected integer shift count, got " ++ t.text

end EvalError

namespace Operator

/-- The truth of a comparison, given the two orders between its operands and their equality. -/
def compared (op : Operator) (lt gt eq : Bool) : Option Bool :=
  match op with
  | .lt => some lt
  | .le => some (lt || eq)
  | .gt => some gt
  | .ge => some (gt || eq)
  | .eq => some eq
  | .ne => some !eq
  | _ => none

/-- Arithmetic at the width of an integer kind. -/
def evalBits (op : Operator) (k : IntKind) (a b : BitVec k.width) :
    Except EvalError (Option (BitVec k.width)) :=
  match op with
  | .add => .ok (some (a + b))
  | .sub => .ok (some (a - b))
  | .mul => .ok (some (a * b))
  | .quo =>
    if b = 0 then .error .divisionByZero
    else .ok (some (if k.signed then a.sdiv b else a.udiv b))
  | .rem =>
    if b = 0 then .error .divisionByZero
    else .ok (some (if k.signed then a.srem b else a.umod b))
  | .and => .ok (some (a &&& b))
  | .or => .ok (some (a ||| b))
  | .xor => .ok (some (a ^^^ b))
  | .andNot => .ok (some (a &&& ~~~b))
  | _ => .ok none

/-- An operator on two integers of one kind. -/
def evalInt (op : Operator) (k : IntKind) (a b : BitVec k.width) : Except EvalError Scalar := do
  match ← op.evalBits k a b with
  | some c => return .int k c
  | none =>
    match op.compared (k.toInt a < k.toInt b) (k.toInt b < k.toInt a) (a == b) with
    | some c => return .bool c
    | none => throw (.notDefined op (.int k))

/-- An operator on two floats of one format. -/
def evalFloat (op : Operator) (p : Precision) (x y : Binary p) : Except EvalError Scalar :=
  match op with
  | .add => .ok (.float p (x + y))
  | .sub => .ok (.float p (x - y))
  | .mul => .ok (.float p (x * y))
  | .quo => .ok (.float p (x / y))
  | _ =>
    match op.compared (x.lt y) (y.lt x) (x.eq y) with
    | some c => .ok (.bool c)
    | none => .error (.notDefined op (.float p))

/-- An operator on two complex numbers of one format. -/
def evalComplex (op : Operator) (p : Precision) (x y : Complex p) : Except EvalError Scalar :=
  match op with
  | .add => .ok (.complex p (x + y))
  | .sub => .ok (.complex p (x - y))
  | .mul => .ok (.complex p (x * y))
  | .quo => .ok (.complex p (x / y))
  | .eq => .ok (.bool (x.eq y))
  | .ne => .ok (.bool !(x.eq y))
  | _ => .error (.notDefined op (.complex p))

def evalString (op : Operator) (s t : String) : Except EvalError Scalar :=
  match op with
  | .add => .ok (.string (s ++ t))
  | _ =>
    match op.compared (s < t) (t < s) (s == t) with
    | some c => .ok (.bool c)
    | none => .error (.notDefined op .string)

def evalBool (op : Operator) (a b : Bool) : Except EvalError Scalar :=
  match op with
  | .eq => .ok (.bool (a == b))
  | .ne => .ok (.bool (a != b))
  | .logicalAnd => .ok (.bool (a && b))
  | .logicalOr => .ok (.bool (a || b))
  | _ => .error (.notDefined op .bool)

/-- A shift at the width of an integer kind. Bits pushed out are lost; a right shift fills with the
sign of a signed kind. -/
def shiftBits (op : Operator) (k : IntKind) (a : BitVec k.width) (n : Nat) : BitVec k.width :=
  if op = .shl then
    if n < k.width then a <<< n else 0
  else if k.signed then a.sshiftRight (min n (k.width - 1))
  else if n < k.width then a >>> n
  else 0

/-- The count of a shift. -/
def shiftCount (count : Value) : Except EvalError Nat :=
  match count with
  | .scalar (.int k n) =>
    if k.toInt n < 0 then .error (.negativeShift (k.toInt n)) else .ok (k.toInt n).toNat
  | _ => .error (.badCount count.type)

def evalShift (op : Operator) (x count : Value) : Except EvalError Value := do
  let n ← shiftCount count
  match x with
  | .scalar (.int k a) => return .scalar (.int k (op.shiftBits k a n))
  | _ => throw (.notDefined op x.kind)

/-- An operator on two scalars of one kind. -/
def evalScalars (op : Operator) : Scalar → Scalar → Except EvalError Scalar
  | .int k a, .int l b =>
    if h : l = k then op.evalInt k a (h ▸ b) else .error (.notDefined op (.int k))
  | .float .single x, .float .single y => op.evalFloat .single x y
  | .float .double x, .float .double y => op.evalFloat .double x y
  | .complex .single x, .complex .single y => op.evalComplex .single x y
  | .complex .double x, .complex .double y => op.evalComplex .double x y
  | .string s, .string t => op.evalString s t
  | .bool a, .bool b => op.evalBool a b
  | s, _ => .error (.notDefined op s.kind)

/-- An operator on two values of the operand kind `k`; a shift takes its second operand as a count
of any integer kind. -/
def eval (op : Operator) (k : Kind) (x y : Value) : Except EvalError Value :=
  if x.kind ≠ k then .error (.mismatch k x.type)
  else if op.isShift then op.evalShift x y
  else if y.kind ≠ k then .error (.mismatch k y.type)
  else
    match x, y with
    | .scalar s, .scalar t => (op.evalScalars s t).map .scalar
    | _, _ => .error (.notDefined op k)

end Operator

end StackScript
