import MarketAlgebra.Expr.Exponent
import MarketAlgebra.Poly.Basic

/-!
# Polynomials and expressions

An expression is a polynomial in a variable when it is built from that variable and constants by
sums, differences, products, negations, quotients with a nonzero constant below the bar, and powers
with a natural exponent that is expanded.  What counts below the bar is the polynomial, so
`Q / (2 + Q - Q)` is one.
-/

namespace MarketAlgebra.Poly

/-- The polynomial in `x` that an expression denotes. -/
def ofExpr? (x : String) : Expr → Option Poly
  | .var name => if name = x then some Poly.x else none
  | .const c => some (const c)
  | .add a b => return (← ofExpr? x a) + (← ofExpr? x b)
  | .sub a b => return (← ofExpr? x a) - (← ofExpr? x b)
  | .mul a b => return (← ofExpr? x a) * (← ofExpr? x b)
  | .div a b => do
    let d ← ofExpr? x b
    if d.degree? = some 0 then return scale (1 / d.coeff 0) (← ofExpr? x a) else none
  | .neg a => return -(← ofExpr? x a)
  | .pow base e => do
    let n ← e.naturalExponent?
    return (← ofExpr? x base).pow n
  | .call _ _ => none

/-- One term as an expression.  A coefficient `1` is left out, and so is an exponent `1`. -/
def termExpr (x : String) (n : Nat) (c : Rat) : Expr :=
  match n with
  | 0 => .const c
  | n + 1 =>
    let power : Expr := if n = 0 then .var x else .pow (.var x) (.int (n + 1))
    if c = 1 then power else .mul (.const c) power

/-- The polynomial as a sum of its terms, highest exponent first. -/
def toExpr (x : String) (p : Poly) : Expr :=
  match p.terms.map fun t => termExpr x t.1 t.2 with
  | [] => .zero
  | t :: ts => ts.foldl .add t

end MarketAlgebra.Poly
