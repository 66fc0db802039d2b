import StackScript.Number.Shortest

/-!
# Reading numbers

Integers in a radix and decimal fractions with an exponent. Both readers accept a leading sign
and take the whole text or nothing.
-/

namespace StackScript

/-- The value of a digit or letter, for radices up to sixteen. -/
def digitValue? (c : Char) : Option Nat :=
  if '0' ≤ c ∧ c ≤ '9' then some (c.toNat - '0'.toNat)
  else if 'a' ≤ c ∧ c ≤ 'f' then some (c.toNat - 'a'.toNat + 10)
  else if 'A' ≤ c ∧ c ≤ 'F' then some (c.toNat - 'A'.toNat + 10)
  else none

/-- The value of a character as a digit of the given radix. -/
def digitOf? (radix : Nat) (c : Char) : Option Nat :=
  (digitValue? c).filter (· < radix)

/-- The number that the digits write after those read so far. -/
def readDigits? (radix : Nat) : Nat → List Char → Option Nat
  | n, [] => some n
  | n, c :: cs => (digitOf? radix c).bind fun d => readDigits? radix (n * radix + d) cs

/-- One or more digits. -/
def readNat? (radix : Nat) (cs : List Char) : Option Nat :=
  if cs.isEmpty then none else readDigits? radix 0 cs

/-- Splits off a sign; true stands for minus. -/
def splitSign : List Char → Bool × List Char
  | '-' :: cs => (true, cs)
  | '+' :: cs => (false, cs)
  | cs => (false, cs)

/-- Digits after an optional sign. -/
def readInt? (radix : Nat) (cs : List Char) : Option Int :=
  let (minus, digits) := splitSign cs
  (readNat? radix digits).map fun n => if minus then -(n : Int) else n

/-- A decimal fraction with its sign. -/
structure SignedDecimal where
  negative : Bool
  value : Decimal

/-- The exponent behind a mantissa: nothing, or `e` and a signed number. -/
def readExponent? : List Char → Option Int
  | [] => some 0
  | c :: cs => if c = 'e' ∨ c = 'E' then readInt? 10 cs else none

/-- A mantissa with at least one digit on either side of an optional point, and an exponent. -/
def readDecimal? (cs : List Char) : Option SignedDecimal :=
  let (negative, body) := splitSign cs
  let whole := body.takeWhile Char.isDigit
  let rest := body.dropWhile Char.isDigit
  let (fraction, rest) := match rest with
    | '.' :: more => (more.takeWhile Char.isDigit, more.dropWhile Char.isDigit)
    | _ => ([], rest)
  do
    let digits ← readNat? 10 (whole ++ fraction)
    let exponent ← readExponent? rest
    some ⟨negative, ⟨digits, exponent - fraction.length⟩⟩

/-- Bit pattern of the number nearest to a decimal. Far outside the range of the formats the answer
needs no arithmetic. -/
def Decimal.nearest (p : Precision) (d : Decimal) : Nat :=
  let size : Int := (toString d.digits).length + d.exponent
  if d.digits = 0 ∨ size < -400 then 0
  else if 400 < size then p.infinity
  else if 0 ≤ d.exponent then StackScript.nearest p (d.digits * Nat.pow 10 d.exponent.toNat) 1
  else StackScript.nearest p d.digits (Nat.pow 10 (-d.exponent).toNat)

/-- The number of format `p` nearest to a decimal text. -/
def Binary.read? (p : Precision) (cs : List Char) : Option (Binary p) :=
  (readDecimal? cs).map fun d => ofMagnitude p d.negative (d.value.nearest p)

/-- Lower-case hexadecimal digits, padded with zeros to a least width. -/
def hexDigits (width n : Nat) : String :=
  let s := Nat.toDigits 16 n
  String.ofList (List.replicate (width - s.length) '0' ++ s)

end StackScript
