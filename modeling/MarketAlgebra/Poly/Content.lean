import MarketAlgebra.Poly.Basic

/-!
# Content and primitive part

Every nonzero polynomial is a rational, its content, times a polynomial with integer coefficients
that have no common factor and a positive leading one.
-/

namespace MarketAlgebra.Poly

/-- A common denominator of all coefficients, the least one. -/
def commonDenominator (p : Poly) : Nat := p.terms.foldl (fun d t => d.lcm t.2.den) 1

/-- The coefficients times the common denominator, from the constant term up. -/
def integerCoeffs (p : Poly) : List Int :=
  (List.range p.size).map fun n => (p.coeff n * p.commonDenominator).num

/-- The content and the coefficients of the primitive part, from the constant term up.  The zero
polynomial has the content `0` and no coefficients. -/
def contentAndPrimitive (p : Poly) : Rat × List Int :=
  let coeffs := p.integerCoeffs
  let divisor := coeffs.foldl (fun g c => g.gcd c.natAbs) 0
  let signed : Int := if p.leading < 0 then -divisor else divisor
  (mkRat signed p.commonDenominator, coeffs.map (· / signed))

end MarketAlgebra.Poly
