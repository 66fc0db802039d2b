/-!
# Nearest binary numbers

A rational is rounded to the bit pattern of the nearest number of a binary format. A tie goes to
the even neighbour, and what is too large becomes infinity.
-/

namespace StackScript

/-- The two binary floating-point formats. -/
inductive Precision
  | single
  | double
deriving DecidableEq, Repr, Inhabited

namespace Precision

/-- Bits of a number. -/
def width : Precision → Nat
  | single => 32
  | double => 64

/-- Stored bits of the significand. -/
def fractionBits : Precision → Nat
  | single => 23
  | double => 52

/-- Exponent of the last place of the smallest numbers. -/
def lowest : Precision → Int
  | single => -149
  | double => -1074

/-- Bit pattern of positive infinity: a full exponent field over an empty fraction. -/
def infinity : Precision → Nat
  | single => 255 <<< 23
  | double => 2047 <<< 52

end Precision

/-- The integer nearest to `num / den`, a tie going to the even one. -/
def divNearest (num den : Nat) : Nat :=
  let q := num / den
  let r := num % den
  if den < 2 * r ∨ (2 * r = den ∧ q % 2 = 1) then q + 1 else q

/-- The exponent `e` with `2 ^ e ≤ num / den < 2 ^ (e + 1)`, for a positive quotient. -/
def binaryExponent (num den : Nat) : Int :=
  let e : Int := (num.log2 : Int) - den.log2
  let reached := if 0 ≤ e then den <<< e.toNat ≤ num else den ≤ num <<< (-e).toNat
  if reached then e else e - 1

/-- Bit pattern of the number of format `p` nearest to `num / den`. The exponent field is what the
place of the last kept bit exceeds `lowest` by, and a carry out of the significand runs into it. -/
def nearest (p : Precision) (num den : Nat) : Nat :=
  if num = 0 then 0 else
  let place := max (binaryExponent num den - p.fractionBits) p.lowest
  let significand :=
    if 0 ≤ place then divNearest num (den <<< place.toNat)
    else divNearest (num <<< (-place).toNat) den
  min (((place - p.lowest).toNat <<< p.fractionBits) + significand) p.infinity

end StackScript
