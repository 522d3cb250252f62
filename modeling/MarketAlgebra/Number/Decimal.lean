import MarketAlgebra.Number.Binary64

/-!
# Decimal texts of floats

A finite nonzero float is written with the fewest significant decimal digits that read back as the
same float.  Among the decimals with that many digits the nearest one is taken, and of two equally
near ones the larger.

The search works on exact naturals.  A float `m * 2 ^ q` is the nearest float to every real between
the midpoints to its two neighbours, and to the midpoints themselves when `m` is even
(`readBack`).  For one digit, two digits and so on, the two decimals next to the value on the grid
of that many digits are tried (`candidate`), and the first grid with a hit ends the search
(`shortest`).  Seventeen digits always suffice for a binary64 number.

How digits become a text is separate from the search: `plain` never writes an exponent,
`scientific` always does, and `fixed` rounds the exact value to a given count of places.
-/

namespace MarketAlgebra.Decimal

open Binary64 (Parts parts)

/-! ## Decimal magnitude -/

/-- The number of decimal digits of a natural, which is one for zero. -/
def digitCount (n : Nat) : Nat := (Nat.toDigits 10 n).length

/-- The integer `k` with `10 ^ k ≤ n / d < 10 ^ (k + 1)`, for positive `n` and `d`. -/
def decimalExponent (n d : Nat) : Int :=
  if d ≤ n then (digitCount (n / d) : Int) - 1
  else -(digitCount ((d + n - 1) / n - 1) : Int)

/-! ## The shortest digits -/

/-- The positive decimal `digits * 10 ^ exponent`. -/
structure Digits where
  /-- The significant digits as one number. -/
  digits : Nat
  /-- The place of the last digit. -/
  exponent : Int
deriving DecidableEq, Repr

/-- A float and the reals that read back as it, over a common denominator. -/
structure ReadBack where
  /-- The numerator of the lower end. -/
  low : Nat
  /-- The numerator of the value. -/
  value : Nat
  /-- The numerator of the upper end. -/
  high : Nat
  /-- The common denominator. -/
  den : Nat
  /-- Whether the ends themselves read back as the float. -/
  closed : Bool

/-- The reals that read back as `m * 2 ^ q`.  The unit is a quarter of the last mantissa bit.
Below a power of two the neighbour is only half as far away, unless the numbers are subnormal
there. -/
def readBack (m : Nat) (q : Int) : ReadBack :=
  let atPower := m = 1 <<< Binary64.storedBits ∧ Binary64.leastExponent < q
  let scale := 1 <<< (q - 2).toNat
  { low := (4 * m - if atPower then 1 else 2) * scale
    value := 4 * m * scale
    high := (4 * m + 2) * scale
    den := 1 <<< (2 - q).toNat
    closed := m % 2 = 0 }

/-- Whether the quotient `n / d` reads back as the float. -/
def ReadBack.contains (r : ReadBack) (n d : Nat) : Bool :=
  let low := r.low * d
  let high := r.high * d
  let x := n * r.den
  if r.closed then low ≤ x && x ≤ high else low < x && x < high

/-- The decimal with the given number of digits that reads back, if there is one: the nearer one of
the two neighbours of the value, and the larger one of two equally near. -/
def candidate (r : ReadBack) (k : Int) (count : Nat) : Option Digits :=
  let place : Int := k + 1 - count
  let up := Nat.pow 10 place.toNat
  let down := Nat.pow 10 (-place).toNat
  let n := r.value * down
  let d := r.den * up
  let below := n / d
  let nearest := roundDiv .up n d
  let other := if nearest = below then below + 1 else below
  let hits (digits : Nat) : Bool := r.contains (digits * up) down
  if hits nearest then some ⟨nearest, place⟩
  else if hits other then some ⟨other, place⟩
  else none

/-- The same decimal without trailing zeros, for digits that are not zero. -/
def Digits.trim (d : Digits) : Digits :=
  let written := Nat.toDigits 10 d.digits
  let zeros := (written.reverse.takeWhile (· == '0')).length
  ⟨d.digits / Nat.pow 10 zeros, d.exponent + zeros⟩

/-- The shortest digits that read back as `m * 2 ^ q`, for a positive mantissa `m`. -/
def shortest (m : Nat) (q : Int) : Digits :=
  let r := readBack m q
  let k := decimalExponent r.value r.den
  let found := (List.range 17).findSome? fun i => candidate r k (i + 1)
  (found.getD ⟨m, 0⟩).trim

/-! ## Layouts -/

/-- A run of zeros. -/
def zeros (n : Nat) : String := String.ofList (List.replicate n '0')

/-- Digits with a point after the units and no exponent. -/
def Digits.plain (d : Digits) : String :=
  let written := Nat.toDigits 10 d.digits
  let point : Int := written.length + d.exponent
  if 0 ≤ d.exponent then String.ofList written ++ zeros d.exponent.toNat
  else if 0 < point then
    String.ofList (written.take point.toNat) ++ "." ++ String.ofList (written.drop point.toNat)
  else "0." ++ zeros (-point).toNat ++ String.ofList written

/-- Digits with a point after the first one, and the exponent of ten after an `e`. -/
def Digits.scientific (d : Digits) : String :=
  let written := Nat.toDigits 10 d.digits
  let exponent : Int := written.length - 1 + d.exponent
  let rest := if written.length ≤ 1 then "" else "." ++ String.ofList (written.drop 1)
  String.ofList (written.take 1) ++ rest ++ "e" ++ toString exponent

/-- A natural with its last `places` digits behind the point. -/
def placed (places n : Nat) : String :=
  let unit := Nat.pow 10 places
  let behind := Nat.toDigits 10 (n % unit)
  toString (n / unit) ++ "." ++ zeros (places - behind.length) ++ String.ofList behind

/-- The text of a float, given how the magnitude of a finite one is written. -/
def spell (x : Float) (magnitude : Parts → String) : String :=
  match parts x with
  | some p => (if p.negative then "-" else "") ++ magnitude p
  | none => if x.isNaN then "NaN" else if x < 0 then "-inf" else "inf"

/-- The shortest text without an exponent. -/
def plain (x : Float) : String :=
  spell x fun p => if p.mantissa = 0 then "0" else (shortest p.mantissa p.exponent).plain

/-- The shortest text with an exponent. -/
def scientific (x : Float) : String :=
  spell x fun p => if p.mantissa = 0 then "0e0" else (shortest p.mantissa p.exponent).scientific

/-- The exact value rounded to `places` decimal places, at least one.  A half goes to the even
neighbour, and a negative number keeps its sign when it rounds to zero. -/
def fixed (places : Nat) (x : Float) : String :=
  spell x fun p =>
    placed places (roundDiv .toEven (p.mantissa <<< p.exponent.toNat * Nat.pow 10 places)
      (1 <<< (-p.exponent).toNat))

end MarketAlgebra.Decimal
