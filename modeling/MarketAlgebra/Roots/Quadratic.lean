import MarketAlgebra.Number.Binary64
import MarketAlgebra.Number.SquareRoot
import MarketAlgebra.Poly.Basic
import MarketAlgebra.Simplify.Pass

/-!
# Roots of linear and quadratic polynomials

These roots are exact.  The roots of `a x^2 + b x + c` are `-b / 2a ± sqrt D / 2a` with the
discriminant `D = b^2 - 4ac`.  The root of a rational `n / d` is written `sqrt (n d) / d`, and small
square factors are pulled out of it.  Each root comes with its approximation.
-/

namespace MarketAlgebra.Roots

/-- A root as an exact expression, with its approximation. -/
abbrev Approximated := Expr × Float

/-- A rational root with its approximation. -/
def approximated (r : Rat) : Approximated := (.const r, Binary64.ofRat r)

/-- The root of a linear polynomial. -/
def linearRoot (p : Poly) : Approximated := approximated (-p.coeff 0 / p.coeff 1)

/-- The irrational root `center + offset * sqrt inside`. -/
def surdRoot (center offset : Rat) (inside : Nat) : Approximated :=
  (simplify (.add (.const center) (.mul (.const offset) (.sqrt (.const inside)))),
    Binary64.ofRat center + Binary64.ofRat offset * (Binary64.ofRat inside).sqrt)

/-- The real roots of a quadratic polynomial. -/
def quadraticRoots (p : Poly) : List Approximated :=
  let a := p.coeff 2
  let b := p.coeff 1
  let c := p.coeff 0
  let discriminant := b * b - 4 * a * c
  let center := -b / (2 * a)
  if discriminant < 0 then []
  else if discriminant = 0 then [approximated center]
  else
    let surd := SurdForm.ofNat (discriminant.num.toNat * discriminant.den)
    let halfWidth := mkRat surd.outside discriminant.den / (2 * a).abs
    if surd.inside = 1 then [approximated (center - halfWidth), approximated (center + halfWidth)]
    else [surdRoot center (-halfWidth) surd.inside, surdRoot center halfWidth surd.inside]

end MarketAlgebra.Roots
