import MarketAlgebra.Poly.Basic

/-!
# Division of polynomials

Division with remainder cancels leading terms until the remainder is smaller than the divisor.  The
greatest common divisor is that of the Euclidean algorithm, made monic.  The square-free part of a
polynomial has the same roots, each of them simple.  It is the quotient by the greatest common
divisor with the derivative.
-/

namespace MarketAlgebra.Poly

/-- Quotient and remainder.  A zero divisor gives the quotient `0`. -/
def divMod (p d : Poly) : Poly × Poly :=
  if h : d.size = 0 ∨ p.size < d.size then (zero, p)
  else
    let n := p.size - d.size
    let c := p.leading / d.leading
    let r := p.reductum - timesTerm n c d.reductum
    have : r.size < p.size := by
      have hd := size_reductum_lt (p := d) (by omega)
      have hp := size_reductum_lt (p := p) (by omega)
      have ht := size_timesTerm_le n c d.reductum
      have hr : r.size ≤ p.size - 1 := size_sub_le (by omega) (by omega)
      omega
    let (q, s) := divMod r d
    (monomial n c + q, s)
termination_by p.size

/-- The remainder is smaller than a divisor that is not zero. -/
theorem size_divMod_lt (p : Poly) {d : Poly} (hd : d.size ≠ 0) : (divMod p d).2.size < d.size := by
  fun_induction divMod p d with
  | case1 p h => simp only; omega
  | case2 p h n c r hr q s heq ih => simpa [heq] using ih

/-- The quotient, if the division leaves no remainder. -/
def divExact? (p d : Poly) : Option Poly :=
  let (q, r) := divMod p d
  if r.isZero then some q else none

/-- The greatest common divisor, monic unless both polynomials are zero. -/
def gcd (p q : Poly) : Poly :=
  if h : q.size = 0 then p.monic
  else
    have := size_divMod_lt p h
    gcd q (divMod p q).2
termination_by q.size

/-- The monic polynomial with the same roots, each of them simple.  A constant stays as it is. -/
def squareFreePart (p : Poly) : Poly :=
  if p.size ≤ 1 then p
  else ((p.divExact? (gcd p p.derivative)).getD p).monic

end MarketAlgebra.Poly
