import Treewalk.Number.Shortest

/-!
# Writing numbers

A `NumberLayout` says where positional notation ends and how the parts of a number are spelled;
`NumberLayout.write` spells the shortest decimal of a double accordingly. Numbers in a tree outline
keep a fraction of zero (`outline`); displayed numbers drop it (`display`).
-/
namespace Treewalk

/-- The choices of a number format. -/
structure NumberLayout where
  /-- Least exponent of the first digit that is written positionally. -/
  leastPositional : Int
  /-- First exponent of the first digit that is not written positionally any more. -/
  firstScientific : Int
  /-- Written after a positional number without a fraction. -/
  wholeSuffix : String
  /-- Least number of digits of an exponent. -/
  exponentDigits : Nat
  infinityText : String
  nanText : String
deriving Repr

namespace NumberLayout

/-- Numbers are positional from 0.0001 up to, not including, ten to the sixteenth, and whole ones
end in a point and a zero. -/
def outline : NumberLayout := ⟨-4, 16, ".0", 2, "inf", "nan"⟩

/-- As `outline`, but whole numbers end after their last digit. -/
def display : NumberLayout := { outline with wholeSuffix := "" }

/-- Zeros written out. -/
def zeros (n : Nat) : String := String.ofList (List.replicate n '0')

/-- Exponent with its sign and at least the given number of digits. -/
def exponentText (layout : NumberLayout) (e : Int) : String :=
  let digits := toString e.natAbs
  (if e < 0 then "-" else "+") ++ zeros (layout.exponentDigits - digits.length) ++ digits

/-- The digits `ds` of `0.ds * 10 ^ point` in positional notation. -/
def positional (layout : NumberLayout) (ds : List Char) (point : Int) : String :=
  if point ≤ 0 then "0." ++ zeros (-point).toNat ++ String.ofList ds
  else
    let n := point.toNat
    if ds.length ≤ n then
      String.ofList ds ++ zeros (n - ds.length) ++ layout.wholeSuffix
    else
      String.ofList (ds.take n) ++ "." ++ String.ofList (ds.drop n)

/-- The digits `ds` of `d.ds * 10 ^ e` in scientific notation. -/
def scientific (layout : NumberLayout) (ds : List Char) (e : Int) : String :=
  String.ofList (ds.take 1) ++
    (if ds.length ≤ 1 then "" else "." ++ String.ofList (ds.drop 1)) ++
    "e" ++ layout.exponentText e

/-- A positive decimal. -/
def decimal (layout : NumberLayout) (d : Decimal) : String :=
  let ds := Nat.toDigits 10 d.digits
  let point := d.exponent + ds.length
  if layout.leastPositional < point ∧ point ≤ layout.firstScientific then
    layout.positional ds point
  else layout.scientific ds (point - 1)

/-- A double by its parts. -/
def parts (layout : NumberLayout) : Double → String
  | .nan => layout.nanText
  | .infinite negative => (if negative then "-" else "") ++ layout.infinityText
  | .finite negative m e =>
      (if negative then "-" else "") ++
        (if m = 0 then layout.positional ['0'] 1 else layout.decimal (Decimal.shortest m e))

/-- A double as text. -/
def write (layout : NumberLayout) (x : Float) : String := layout.parts (Double.ofFloat x)

end NumberLayout
end Treewalk
