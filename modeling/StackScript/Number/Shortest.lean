import StackScript.Number.Binary

/-!
# Shortest decimal text

A finite number is written with the fewest digits that read back as itself: of the decimal grids
`10 ^ k`, the coarsest that has a point among the reals rounding to the number. Texts are
positional at every size.
-/

namespace StackScript

/-- A natural number scaled by a power of ten. -/
structure Decimal where
  digits : Nat
  exponent : Int
deriving DecidableEq, Repr

namespace Decimal

/-- Digits with a point where the exponent asks for one, and no exponent. -/
def positional (d : Decimal) : String :=
  let s := (toString d.digits).toList
  if 0 ≤ d.exponent then
    if d.digits = 0 then "0" else String.ofList (s ++ List.replicate d.exponent.toNat '0')
  else
    let places := (-d.exponent).toNat
    let padded := List.replicate (places + 1 - s.length) '0' ++ s
    let whole := padded.length - places
    String.ofList (padded.take whole ++ '.' :: padded.drop whole)

end Decimal

/-- The reals that round to a number, from `low` to `high` around `mid`, in units of `2 ^ place`;
the ends belong to it when the significand is even. -/
structure RoundingInterval where
  low : Nat
  mid : Nat
  high : Nat
  place : Int
  closed : Bool

namespace RoundingInterval

/-- Below a power of two the neighbour is half as far away. -/
def ofBinary {p : Precision} (x : Binary p) : RoundingInterval :=
  let (m, e) := x.parts
  let atPower := m = 1 <<< p.fractionBits ∧ p.lowest < e
  { low := if atPower then 4 * m - 1 else 4 * m - 2
    mid := 4 * m
    high := 4 * m + 2
    place := e - 2
    closed := m % 2 = 0 }

/-- The point of the grid `10 ^ k` that lies in the interval, nearest to its middle; of two at
the same distance the larger. -/
def gridPoint? (i : RoundingInterval) (k : Int) : Option Nat :=
  let unit := Nat.pow 10 (-k).toNat <<< i.place.toNat
  let step := Nat.pow 10 k.toNat <<< (-i.place).toNat
  let below := i.mid * unit / step
  let inside (d : Nat) : Bool :=
    0 < d && (if i.closed then i.low * unit ≤ d * step && d * step ≤ i.high * unit
      else i.low * unit < d * step && d * step < i.high * unit)
  let lower := inside below
  let upper := inside (below + 1)
  if lower && upper then
    if i.mid * unit - below * step < (below + 1) * step - i.mid * unit then some below
    else some (below + 1)
  else if lower then some below
  else if upper then some (below + 1)
  else none

/-- Tries the grids from `10 ^ k` downwards. -/
def coarsest (i : RoundingInterval) : Nat → Int → Decimal
  | 0, k => ⟨0, k⟩
  | tries + 1, k =>
    match i.gridPoint? k with
    | some d => ⟨d, k⟩
    | none => i.coarsest tries (k - 1)

/-- The shortest decimal in the interval. Its first grid is above the number, for the decimal
logarithm of two is below `0.30103`, and twenty grids go beyond the seventeen digits that always
suffice. -/
def shortest (i : RoundingInterval) : Decimal :=
  i.coarsest 20 ((i.mid.log2 + i.place) * 30103 / 100000 + 1)

end RoundingInterval

namespace Binary

variable {p : Precision}

/-- The shortest positional text that reads back as the number. -/
def text (x : Binary p) : String :=
  if x.isNaN then "NaN" else
  let sign := if x.negative then "-" else ""
  if !x.isFinite then sign ++ "inf"
  else if x.isZero then sign ++ "0"
  else sign ++ (RoundingInterval.ofBinary x).shortest.positional

end Binary

/-- Real and imaginary part in parentheses; a negative imaginary part brings its own sign. -/
def Complex.text {p : Precision} (x : Complex p) : String :=
  let sign := if x.im.lt (Binary.zero p) then "" else "+"
  "(" ++ x.re.text ++ sign ++ x.im.text ++ "i)"

end StackScript
