/-!
# Doubles taken apart

A finite double is a signed natural mantissa times a power of two. `Double.ofFloat`
reads these parts off the bit pattern and `Double.toFloat` writes them back; nothing here rounds.
-/
namespace Treewalk

/-- What the bits of a double say: no number, an infinity, or `mantissa * 2 ^ exponent`. -/
inductive Double
  | nan
  | infinite (negative : Bool)
  | finite (negative : Bool) (mantissa : Nat) (exponent : Int)
deriving DecidableEq, Repr

namespace Double

/-- Mantissas of normal doubles lie between this and its double. -/
def hiddenBit : Nat := 1 <<< 52

/-- The exponent of the smallest positive double. -/
def leastExponent : Int := -1074

/-- Reads sign, biased exponent and fraction; the exponent field 2047 is not a finite number. -/
def ofBits (bits : Nat) : Double :=
  let negative := bits >>> 63 % 2 == 1
  let biased := bits / hiddenBit % 2048
  let fraction := bits % hiddenBit
  if biased == 2047 then
    if fraction == 0 then .infinite negative else .nan
  else if biased == 0 then
    .finite negative fraction leastExponent
  else
    .finite negative (fraction + hiddenBit) (leastExponent + (biased - 1 : Nat))

/-- The parts of a double. -/
def ofFloat (x : Float) : Double := ofBits x.toBits.toNat

/-- The bits of `mantissa * 2 ^ exponent`, for a nonzero mantissa below `2 ^ 53` whose value is a
double: the mantissa is shifted up until it is normal or the exponent is the least one. -/
def finiteBits (mantissa : Nat) (exponent : Int) : Nat :=
  let shift := min (52 - Nat.log2 mantissa) (exponent - leastExponent).toNat
  let shifted := mantissa <<< shift
  let raised := (exponent - leastExponent - shift).toNat
  if shifted < hiddenBit then shifted else (raised + 1) * hiddenBit + (shifted - hiddenBit)

/-- The bit pattern of a double given by its parts. -/
def toBits : Double → Nat
  | .nan => 2047 * hiddenBit + hiddenBit / 2
  | .infinite negative => cond negative (1 <<< 63) 0 + 2047 * hiddenBit
  | .finite negative mantissa exponent =>
      cond negative (1 <<< 63) 0 + (if mantissa = 0 then 0 else finiteBits mantissa exponent)

/-- The double with the given parts. -/
def toFloat (d : Double) : Float := Float.ofBits (UInt64.ofNat d.toBits)

example : ofBits 0 = .finite false 0 leastExponent := by decide

example : ofBits 0x3ff0000000000000 = .finite false hiddenBit (-52) := by decide

example : toBits (.finite false 1 0) = 0x3ff0000000000000 := by decide

end Double
end Treewalk
