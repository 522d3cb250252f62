import MarketAlgebra.Number.Rounding

/-!
# Rationals and binary64 numbers

Approximations are IEEE 754 binary64 numbers, the type `Float`.  This module holds the two
conversions between them and the exact rationals, both written in exact integer arithmetic, and the
order in which approximations are sorted.

* `Binary64.ofRat` rounds a rational to the nearest float.  A tie goes to the even mantissa, a
  magnitude below half the least subnormal gives a zero of the same sign, and one that rounds past
  the largest finite float gives an infinity.
* `Binary64.parts` takes a finite float apart, and `Binary64.toRat` gives its exact value.
* `Binary64.rank` places all floats in one line: an undefined value first, then negative numbers,
  `-0`, `0` and positive numbers.
-/

namespace MarketAlgebra.Binary64

/-! ## The format -/

/-- The number of mantissa bits that are stored; a normal number has one more in front. -/
def storedBits : Nat := 52

/-- The exponent of the last mantissa bit of the smallest numbers. -/
def leastExponent : Int := -1074

/-- The bit pattern of positive infinity. -/
def infinityBits : Nat := 2047 <<< storedBits

/-- The bit that marks a negative number. -/
def signBit : Nat := 1 <<< 63

/-! ## From rationals -/

/-- The integer `e` with `2 ^ e ≤ n / d < 2 ^ (e + 1)`, for positive `n` and `d`. -/
def binaryExponent (n d : Nat) : Int :=
  let e : Int := (n.log2 : Int) - (d.log2 : Int)
  if d <<< e.toNat ≤ n <<< (-e).toNat then e else e - 1

/-- The bit pattern of the float nearest to `n / d`, for a positive `d`.

The mantissa is the quotient by `2 ^ q`, rounded to even, where `q` is the exponent that leaves 53
bits, but never below `leastExponent`.  Adding the exponent field and the rounded mantissa with its
leading bit carries correctly when rounding reaches the next power of two. -/
def magnitudeBits (n d : Nat) : Nat :=
  if n = 0 then 0
  else
    let q : Int := max (binaryExponent n d - storedBits) leastExponent
    let mantissa := roundDiv .toEven (n <<< (-q).toNat) (d <<< q.toNat)
    min (((q - leastExponent).toNat <<< storedBits) + mantissa) infinityBits

/-- The float nearest to a rational, ties to even. -/
def ofRat (x : Rat) : Float :=
  let sign := if x.num < 0 then signBit else 0
  Float.ofBits (UInt64.ofNat (sign + magnitudeBits x.num.natAbs x.den))

/-! ## To rationals -/

/-- A finite float as `± mantissa * 2 ^ exponent`. -/
structure Parts where
  /-- Whether the sign bit is set; a zero has a sign, too. -/
  negative : Bool
  /-- The mantissa with its leading bit. -/
  mantissa : Nat
  /-- The exponent of the last mantissa bit. -/
  exponent : Int
deriving DecidableEq, Repr

/-- The parts of a finite float; infinities and undefined values have none. -/
def parts (x : Float) : Option Parts :=
  let bits := x.toBits.toNat
  let exponentField := (bits >>> storedBits) % 2048
  let stored := bits % (1 <<< storedBits)
  if exponentField = 2047 then none
  else
    some {
      negative := bits >>> 63 == 1
      mantissa := if exponentField = 0 then stored else stored + (1 <<< storedBits)
      exponent := (max exponentField 1 : Nat) - 1 + leastExponent }

/-- The exact value of the parts. -/
def Parts.toRat (p : Parts) : Rat :=
  let magnitude : Rat := mkRat (p.mantissa <<< p.exponent.toNat) (1 <<< (-p.exponent).toNat)
  if p.negative then -magnitude else magnitude

/-- The exact value of a finite float. -/
def toRat (x : Float) : Option Rat :=
  (parts x).map Parts.toRat

/-! ## The order -/

/-- The place of a float among all floats.  An undefined value comes before all numbers and `-0`
directly before `0`. -/
def rank (x : Float) : Int :=
  if x.isNaN then -(1 <<< 64 : Nat)
  else
    let bits := x.toBits.toNat
    if bits < signBit then bits else -(bits - signBit : Nat) - 1

/-- Whether a float comes before another one or shares its place. -/
def notAfter (x y : Float) : Bool :=
  decide (rank x ≤ rank y)

/-- Whether the sign bit is set, as it is for `-0`. -/
def isNegative (x : Float) : Bool :=
  x.toBits.toNat ≥ signBit

end MarketAlgebra.Binary64
