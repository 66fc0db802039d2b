import StackScript.Constant.Basic
import StackScript.Task

/-!
# Folding

Operators on constants. Two untyped constants are combined exactly, at the higher of their ranks;
with a bound one the operator works as it does at run time.
-/

namespace StackScript

namespace Constant

/-- What folding two constants yields. Dividing the least integer by minus one is a fault. -/
abbrev Folded := Except (Stop ConstantError) Constant

/-- The untyped integer of a constant. -/
def integer : Constant → Except ConstantError Int
  | int n => .ok n
  | float x =>
    if x.isIntegral then .ok (clampReal x)
    else .error (.truncated (.float x) (.int .int))
  | complex z =>
    if z.im.isZero then integer (float z.re) else .error (.truncated (.complex z) (.int .int))
  | bound v => .error (.truncated (.bound v) (.int .int))
termination_by c => match c with
  | complex _ => 1
  | _ => 0

/-- The real part of an untyped constant. -/
def real : Constant → Binary .double
  | int n => Binary.ofInt .double n
  | float x => x
  | complex z => z.re
  | bound v => ((v.scalar?.bind Scalar.real?)).getD (Binary.zero .double)

def asComplex : Constant → Complex .double
  | complex z => z
  | c => .ofReal c.real

/-- A truth value as a constant. -/
def truth (b : Bool) : Constant := bound (.bool b)

/-- A bit operation on 128-bit integers. -/
def onBits (f : BitVec 128 → BitVec 128 → BitVec 128) (a b : Int) : Int :=
  (f (BitVec.ofInt 128 a) (BitVec.ofInt 128 b)).toInt

/-- The result of an integer operator, unless it is out of range. -/
def checked (op : Operator) (n : Int) : Folded :=
  if inRange n then .ok (int n) else .error (.error (.resultOverflows op (.int .int)))

/-- A quotient or remainder by a number that is not zero. -/
def divided (a b n : Int) : Folded :=
  if inRange (a.tdiv b) then .ok (int n) else .error (.fault .outOfRange)

def foldInt (op : Operator) (a b : Int) : Folded :=
  match op with
  | .add => checked op (a + b)
  | .sub => checked op (a - b)
  | .mul => checked op (a * b)
  | .quo => if b = 0 then .error (.error .divisionByZero) else divided a b (a.tdiv b)
  | .rem => if b = 0 then .error (.error .divisionByZero) else divided a b (a.tmod b)
  | .and => .ok (int (onBits (· &&& ·) a b))
  | .or => .ok (int (onBits (· ||| ·) a b))
  | .xor => .ok (int (onBits (· ^^^ ·) a b))
  | .andNot => .ok (int (onBits (fun x y => x &&& ~~~y) a b))
  | _ =>
    match op.compared (a < b) (b < a) (a == b) with
    | some c => .ok (truth c)
    | none => .error (.error (.operands (.notDefined op (.int .int))))

/-- A float result, unless it is infinite or no number. -/
def finite (op : Operator) (x : Binary .double) : Folded :=
  if x.isFinite then .ok (float x) else .error (.error (.resultOverflows op (.float .double)))

def foldFloat (op : Operator) (x y : Binary .double) : Folded :=
  match op with
  | .add => finite op (x + y)
  | .sub => finite op (x - y)
  | .mul => finite op (x * y)
  | .quo => if y.isZero then .error (.error .divisionByZero) else finite op (x / y)
  | _ =>
    match op.compared (x.lt y) (y.lt x) (x.eq y) with
    | some c => .ok (truth c)
    | none => .error (.error (.operands (.notDefined op (.float .double))))

def foldComplex (op : Operator) (x y : Complex .double) : Folded :=
  match op with
  | .add => .ok (complex (x + y))
  | .sub => .ok (complex (x - y))
  | .mul => .ok (complex (x * y))
  | .quo => if y.isZero then .error (.error .divisionByZero) else .ok (complex (x / y))
  | .eq => .ok (truth (x.eq y))
  | .ne => .ok (truth !(x.eq y))
  | _ => .error (.error (.operands (.notDefined op (.complex .double))))

/-- A shift of an integer by a count that is not negative. A left shift keeps every bit or fails,
and always fails by 127 places or more unless it shifts zero by a 32-bit count. -/
def shifted (op : Operator) (a : Int) (count : Nat) : Folded :=
  if op = .shl then
    if count < 127 then checked op (a * (1 <<< count : Nat))
    else if a = 0 ∧ count < 1 <<< 32 then .ok (int 0)
    else .error (.error (.resultOverflows op (.int .int)))
  else .ok (int (if count < 127 then a / (1 <<< count : Nat) else if a < 0 then -1 else 0))

def foldShift (op : Operator) (x y : Constant) : Folded := do
  let a ← x.integer.mapError .error
  let count ← y.integer.mapError .error
  if count < 0 then throw (.error (.negativeShift y))
  shifted op a count.toNat

/-- A constant brought to a kind: converted if it is bound, and bound otherwise. -/
def coerce (c : Constant) (k : Kind) : Except ConstantError Value :=
  match c with
  | bound v =>
    match v.convert k with
    | some w => .ok w
    | none => .error (.notRepresentable c k)
  | c => c.bind k

/-- Folding with a bound operand. -/
def foldBound (op : Operator) (x y : Constant) : Except ConstantError Constant := do
  let r ← (op.resolve x.operandKind y.operandKind).mapError .operands
  let v ← x.coerce r.first
  let w ← match r.second with
    | some k => y.coerce k
    | none => y.bindDefault
  match op.eval r.operand v w with
  | .ok u => return bound u
  | .error .divisionByZero => throw .divisionByZero
  | .error e => throw (.evaluation e)

/-- An operator on two constants. -/
def fold (op : Operator) (x y : Constant) : Folded :=
  if x.operandKind.isBound || y.operandKind.isBound then (foldBound op x y).mapError .error
  else if op.isShift then foldShift op x y
  else
    match x, y with
    | complex _, _ | _, complex _ => foldComplex op x.asComplex y.asComplex
    | float _, _ | _, float _ => foldFloat op x.real y.real
    | _, _ => do
      let a ← x.integer.mapError .error
      let b ← y.integer.mapError .error
      foldInt op a b

end Constant

end StackScript
