import MarketAlgebra.Poly.Content

/-!
# Rational roots

A rational root `p / q` in lowest terms of a polynomial with integer coefficients has a numerator
that divides the constant term and a denominator that divides the leading coefficient.  So all
rational roots are found by trying these quotients, as long as both coefficients are small enough to
list their divisors.
-/

namespace MarketAlgebra.Roots

/-- Coefficients beyond this magnitude are not searched for divisors. -/
def searchLimit : Nat := 1000000

/-- The divisors of a natural from `d` up to its square root, with their cofactors. -/
def divisorPairsFrom (n d : Nat) : List (Nat × Nat) :=
  if 0 < d ∧ d * d ≤ n then
    if n % d = 0 then (d, n / d) :: divisorPairsFrom n (d + 1) else divisorPairsFrom n (d + 1)
  else []
termination_by n + 1 - d
decreasing_by
  all_goals
    have : d ≤ d * d := Nat.le_mul_self d
    omega

/-- The divisors of a positive natural in ascending order. -/
def divisors (n : Nat) : List Nat :=
  let pairs := divisorPairsFrom n 1
  pairs.map (·.1) ++ ((pairs.filter fun p => p.1 != p.2).map (·.2)).reverse

/-- The quotients of divisors of two naturals with both signs. -/
def candidates (constant leading : Nat) : List Rat :=
  (divisors constant).flatMap fun (p : Nat) =>
    (divisors leading).flatMap fun (q : Nat) => [mkRat (-p) q, mkRat p q]

/-- The list with a candidate added if it is a new root. -/
def addRoot (p : Poly) (roots : List Rat) (candidate : Rat) : List Rat :=
  if roots.contains candidate then roots
  else if p.eval candidate = 0 then roots ++ [candidate]
  else roots

/-- The rational roots of a polynomial; when a coefficient is too large to be searched, none but
zero is found. -/
def rationalRoots (p : Poly) : List Rat :=
  let coeffs := p.contentAndPrimitive.2
  let rest := coeffs.dropWhile (· == 0)
  let zeroRoot : List Rat := if coeffs.head? = some 0 then [0] else []
  match rest.head?, rest.getLast? with
  | some constant, some leading =>
    if constant.natAbs ≤ searchLimit ∧ leading.natAbs ≤ searchLimit then
      (candidates constant.natAbs leading.natAbs).foldl (addRoot p) zeroRoot
    else zeroRoot
  | _, _ => zeroRoot

end MarketAlgebra.Roots
