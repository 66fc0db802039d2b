import StackScript.Number.Nearest

/-!
# Binary floating-point numbers

A number is its bit pattern, so that the payload of a NaN and the sign of a zero are part of the
value. Comparison is that of the numbers: zeros are equal and a NaN equals nothing. Conversions
are exact roundings; the four operations are those of the hardware.
-/

namespace StackScript

/-- A binary floating-point number of format `p`. -/
structure Binary (p : Precision) where
  bits : BitVec p.width
deriving DecidableEq

namespace Binary

variable {p : Precision}

/-- The number with the given sign and bit pattern below the sign. -/
def ofMagnitude (p : Precision) (negative : Bool) (magnitude : Nat) : Binary p :=
  ⟨BitVec.ofNat p.width ((if negative then 1 <<< (p.width - 1) else 0) + magnitude)⟩

def zero (p : Precision) : Binary p := ofMagnitude p false 0

instance : Inhabited (Binary p) := ⟨zero p⟩

def negative (x : Binary p) : Bool := x.bits.msb

/-- The bit pattern below the sign. -/
def magnitude (x : Binary p) : Nat := x.bits.toNat % (1 <<< (p.width - 1))

def isNaN (x : Binary p) : Bool := p.infinity < x.magnitude

def isFinite (x : Binary p) : Bool := x.magnitude < p.infinity

/-- Significand and exponent of the last place of a finite number. -/
def parts (x : Binary p) : Nat × Int :=
  let fraction := x.magnitude % (1 <<< p.fractionBits)
  let field := x.magnitude >>> p.fractionBits
  if field = 0 then (fraction, p.lowest)
  else (fraction + (1 <<< p.fractionBits), p.lowest + field - 1)

/-! ## Order -/

/-- Orders the numbers that are not NaN; both zeros have key zero. -/
def key (x : Binary p) : Int := if x.negative then -x.magnitude else x.magnitude

def eq (x y : Binary p) : Bool := !x.isNaN && !y.isNaN && x.key == y.key

def lt (x y : Binary p) : Bool := !x.isNaN && !y.isNaN && x.key < y.key

def le (x y : Binary p) : Bool := !x.isNaN && !y.isNaN && x.key ≤ y.key

def isZero (x : Binary p) : Bool := x.magnitude == 0

/-! ## Integers -/

/-- The number nearest to an integer. -/
def ofInt (p : Precision) (n : Int) : Binary p :=
  ofMagnitude p (n < 0) (nearest p n.natAbs 1)

/-- The integer part of a finite number. -/
def trunc (x : Binary p) : Int :=
  let (m, e) := x.parts
  let n := if 0 ≤ e then m <<< e.toNat else m >>> (-e).toNat
  if x.negative then -n else n

/-- Whether a number is finite and an integer. -/
def isIntegral (x : Binary p) : Bool :=
  let (m, e) := x.parts
  x.isFinite && (0 ≤ e || m % (1 <<< (-e).toNat) == 0)

/-- The integer part moved into the range from `lo` to `hi`; a NaN counts as zero. -/
def clamp (lo hi : Int) (x : Binary p) : Int :=
  if x.isNaN then 0
  else if x.isFinite then max lo (min hi x.trunc)
  else if x.negative then lo else hi

/-! ## Conversion between formats -/

/-- The bit that tells a quiet NaN. -/
def quietBit (p : Precision) : Nat := 1 <<< (p.fractionBits - 1)

/-- A NaN with its quiet bit set. -/
def quiet (x : Binary p) : Binary p := ⟨x.bits ||| BitVec.ofNat p.width (quietBit p)⟩

/-- The NaN that an invalid operation yields. -/
def indefinite (p : Precision) : Binary p := ofMagnitude p true (p.infinity + quietBit p)

/-- A NaN of another format, keeping the sign and the leading bits of the payload. -/
def convertNaN (q : Precision) (x : Binary p) : Binary q :=
  let payload := x.magnitude - p.infinity
  (ofMagnitude q x.negative
    (q.infinity + ((payload <<< q.fractionBits) >>> p.fractionBits))).quiet

/-- The nearest number of another format. -/
def convert (q : Precision) (x : Binary p) : Binary q :=
  if x.isNaN then x.convertNaN q
  else if x.isFinite then
    let (m, e) := x.parts
    ofMagnitude q x.negative
      (if 0 ≤ e then nearest q (m <<< e.toNat) 1 else nearest q m (1 <<< (-e).toNat))
  else ofMagnitude q x.negative q.infinity

/-! ## Arithmetic -/

def toFloat (x : Binary .double) : Float := Float.ofBits (UInt64.ofBitVec x.bits)

def ofFloat (f : Float) : Binary .double := ⟨f.toBits.toBitVec⟩

def toFloat32 (x : Binary .single) : Float32 := Float32.ofBits (UInt32.ofBitVec x.bits)

def ofFloat32 (f : Float32) : Binary .single := ⟨f.toBits.toBitVec⟩

/-- An operation of the hardware on either format. -/
def operate (f : Float → Float → Float) (g : Float32 → Float32 → Float32) :
    {p : Precision} → Binary p → Binary p → Binary p
  | .single, x, y => ofFloat32 (g x.toFloat32 y.toFloat32)
  | .double, x, y => ofFloat (f x.toFloat y.toFloat)

/-- Hands on the first NaN among the operands; a NaN from other operands is the indefinite one. -/
def settle (x y r : Binary p) : Binary p :=
  if x.isNaN then x.quiet
  else if y.isNaN then y.quiet
  else if r.isNaN then indefinite p
  else r

def add (x y : Binary p) : Binary p := settle x y (operate (· + ·) (· + ·) x y)

def sub (x y : Binary p) : Binary p := settle x y (operate (· - ·) (· - ·) x y)

def mul (x y : Binary p) : Binary p := settle x y (operate (· * ·) (· * ·) x y)

def div (x y : Binary p) : Binary p := settle x y (operate (· / ·) (· / ·) x y)

instance : Add (Binary p) := ⟨add⟩

instance : Sub (Binary p) := ⟨sub⟩

instance : Mul (Binary p) := ⟨mul⟩

instance : Div (Binary p) := ⟨div⟩

end Binary

/-! ## Complex numbers -/

/-- A complex number over a binary format. -/
structure Complex (p : Precision) where
  re : Binary p
  im : Binary p
deriving DecidableEq, Inhabited

namespace Complex

variable {p : Precision}

/-- A real number as a complex one. -/
def ofReal (x : Binary p) : Complex p := ⟨x, Binary.zero p⟩

def zero (p : Precision) : Complex p := ofReal (Binary.zero p)

def eq (x y : Complex p) : Bool := x.re.eq y.re && x.im.eq y.im

def isZero (x : Complex p) : Bool := x.re.isZero && x.im.isZero

def convert (q : Precision) (x : Complex p) : Complex q := ⟨x.re.convert q, x.im.convert q⟩

def add (x y : Complex p) : Complex p := ⟨x.re + y.re, x.im + y.im⟩

def sub (x y : Complex p) : Complex p := ⟨x.re - y.re, x.im - y.im⟩

def mul (x y : Complex p) : Complex p :=
  ⟨x.re * y.re - x.im * y.im, x.re * y.im + x.im * y.re⟩

/-- The quotient by the textbook formula, dividing by the squared length of the divisor. -/
def div (x y : Complex p) : Complex p :=
  let d := y.re * y.re + y.im * y.im
  ⟨(x.re * y.re + x.im * y.im) / d, (x.im * y.re - x.re * y.im) / d⟩

instance : Add (Complex p) := ⟨add⟩

instance : Sub (Complex p) := ⟨sub⟩

instance : Mul (Complex p) := ⟨mul⟩

instance : Div (Complex p) := ⟨div⟩

end Complex

end StackScript
