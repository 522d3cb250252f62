import MarketAlgebra.Roots.Isolation
import MarketAlgebra.Roots.Quadratic
import MarketAlgebra.Roots.RationalRoot

/-!
# Real roots of a polynomial

The distinct real roots of a polynomial are found on its square-free part.  Rational roots are
divided out first.  What is left is linear, quadratic or of a higher degree, and then its roots are
isolated and approximated by rationals.  The roots are listed in the order of their approximations.
-/

namespace MarketAlgebra.Roots

/-- The polynomial without a rational root. -/
def divideOut (p : Poly) (r : Rat) : Poly := (p.divExact? (.x - .const r)).getD p

/-- The roots of a square-free polynomial without rational roots that are known. -/
def remainingRoots (p : Poly) : List Approximated :=
  match p.size with
  | 0 | 1 => []
  | 2 => [linearRoot p]
  | 3 => quadraticRoots p
  | _ => (isolated p).map approximated

/-- The distinct real roots of a polynomial in ascending order.  A constant has none. -/
def realRoots (p : Poly) : List Expr :=
  let p := p.squareFreePart
  if p.size ≤ 1 then []
  else
    let rationals := rationalRoots p
    let found := rationals.map approximated ++ remainingRoots (rationals.foldl divideOut p)
    ((found.mergeSort fun r s => Binary64.notAfter r.2 s.2).map (·.1)).eraseReps

end MarketAlgebra.Roots
