import Treewalk.Number.Double

/-!
# Shortest decimals

The decimal with the fewest digits that reads back as a given double; of two such decimals the
nearer one, and of two equally near the one whose last digit is even. All arithmetic is exact and
on naturals: the reals that round to a double form an interval whose ends belong to it exactly when
the mantissa is even.
-/
namespace Treewalk

/-- The number `digits * 10 ^ exponent`. -/
structure Decimal where
  digits : Nat
  exponent : Int
deriving DecidableEq, Repr

namespace Decimal

/-- How many decimal digits a natural has. -/
def digitCount (n : Nat) : Nat := (Nat.toDigits 10 n).length

/-- Drops zeros at the end, at most `fuel` of them. -/
def trim : Nat → Decimal → Decimal
  | 0, d => d
  | fuel + 1, d =>
      if d.digits ≠ 0 ∧ d.digits % 10 = 0 then trim fuel ⟨d.digits / 10, d.exponent + 1⟩ else d

/-- The reals that round to one double, over a common denominator, with the double itself. -/
structure Interval where
  low : Nat
  value : Nat
  high : Nat
  denominator : Nat
  closed : Bool
deriving Repr

/-- The interval of `mantissa * 2 ^ exponent`: half way to the neighbours, of which the lower one is
nearer when the mantissa is the least of its binade. -/
def Interval.around (mantissa : Nat) (exponent : Int) : Interval :=
  let below := if mantissa = Double.hiddenBit ∧ exponent ≠ Double.leastExponent then 1 else 2
  let scale := 1 <<< (exponent - 2).toNat
  { low := (4 * mantissa - below) * scale
    value := 4 * mantissa * scale
    high := (4 * mantissa + 2) * scale
    denominator := 1 <<< (2 - exponent).toNat
    closed := mantissa % 2 == 0 }

/-- Whether `numerator / denominator` lies in the interval. -/
def Interval.holds (i : Interval) (numerator denominator : Nat) : Bool :=
  let x := numerator * i.denominator
  if i.closed then i.low * denominator ≤ x && x ≤ i.high * denominator
  else i.low * denominator < x && x < i.high * denominator

/-- The exponent of the first decimal digit of a positive fraction. -/
def magnitude (numerator denominator : Nat) : Int :=
  if denominator ≤ numerator then digitCount (numerator / denominator) - 1
  else
    let n := digitCount (denominator / numerator)
    if denominator ≤ numerator * Nat.pow 10 (n - 1) then 1 - (n : Int) else -(n : Int)

/-- The better of the two grid points around the value, on the grid of multiples of
`10 ^ exponent`, if one of them lies in the interval. -/
def Interval.gridPoint? (i : Interval) (exponent : Int) : Option Decimal :=
  let up := Nat.pow 10 exponent.toNat
  let down := Nat.pow 10 (-exponent).toNat
  let scaled := i.value * down
  let unit := i.denominator * up
  let floor := scaled / unit
  let remainder := scaled % unit
  let lower := i.holds (floor * up) down
  let upper := i.holds ((floor + 1) * up) down
  let takeUpper :=
    if lower && upper then
      unit < 2 * remainder || (unit == 2 * remainder && floor % 2 == 1)
    else upper
  if takeUpper then some ⟨floor + 1, exponent⟩
  else if lower then some ⟨floor, exponent⟩
  else none

/-- Tries ever finer grids, starting at the given exponent. -/
def Interval.search (i : Interval) : Nat → Int → Decimal
  | 0, exponent => ⟨0, exponent⟩
  | fuel + 1, exponent =>
      match i.gridPoint? exponent with
      | some d => d
      | none => i.search fuel (exponent - 1)

/-- The shortest decimal of a positive double; 17 digits always suffice. -/
def shortest (mantissa : Nat) (exponent : Int) : Decimal :=
  let i := Interval.around mantissa exponent
  trim 18 (i.search 17 (magnitude i.value i.denominator))

example : shortest Double.hiddenBit (-52) = ⟨1, 0⟩ := by decide +kernel

example : shortest 7205759403792794 (-56) = ⟨1, -1⟩ := by decide +kernel

example : shortest 1 (-1074) = ⟨5, -324⟩ := by decide +kernel

end Decimal
end Treewalk
