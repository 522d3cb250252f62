import MarketAlgebra.Poly.Conversion
import MarketAlgebra.Poly.Division

/-!
# Rational functions in one variable

A rational function is a quotient of two polynomials.  `RationalFunction.reduce` cancels the
greatest common divisor and makes the denominator monic, so equal functions have equal parts.  An
expression is reduced after every operation, which keeps the polynomials small.

The product of two denominators is zero only when exponents wrap around, as in
`1 / (x ^ 2 ^ 63 - 1) * 1 / (x ^ 2 ^ 63 + 1)`.  Then there is nothing to divide by
(`RationalFunction.settle`).
-/

namespace MarketAlgebra

/-- A quotient of polynomials. -/
structure RationalFunction where
  /-- The polynomial above the bar. -/
  numer : Poly
  /-- The polynomial below the bar. -/
  denom : Poly
deriving DecidableEq

namespace RationalFunction

/-- A polynomial as a rational function. -/
def ofPoly (p : Poly) : RationalFunction := ⟨p, .one⟩

/-- The same function in lowest terms with a monic denominator. -/
def reduce (f : RationalFunction) : RationalFunction :=
  if f.numer.isZero then ofPoly .zero
  else
    let g := Poly.gcd f.numer f.denom
    let n := (f.numer.divExact? g).getD f.numer
    let d := (f.denom.divExact? g).getD f.denom
    let inverse := 1 / d.leading
    ⟨n.scale inverse, d.scale inverse⟩

/-! ## Arithmetic before reduction -/

/-- The sum over the product of the denominators. -/
protected def add (f g : RationalFunction) : RationalFunction :=
  ⟨f.numer * g.denom + g.numer * f.denom, f.denom * g.denom⟩

/-- The difference over the product of the denominators. -/
protected def sub (f g : RationalFunction) : RationalFunction :=
  ⟨f.numer * g.denom - g.numer * f.denom, f.denom * g.denom⟩

/-- The product. -/
protected def mul (f g : RationalFunction) : RationalFunction :=
  ⟨f.numer * g.numer, f.denom * g.denom⟩

/-- The negation. -/
protected def neg (f : RationalFunction) : RationalFunction := ⟨-f.numer, f.denom⟩

/-- A power with a natural exponent. -/
protected def pow (f : RationalFunction) (n : Nat) : RationalFunction :=
  ⟨f.numer.pow n, f.denom.pow n⟩

/-! ## From expressions -/

/-- Why no rational function is read from an expression. -/
inductive ReadFault where
  /-- The expression is not a rational function, or it divides by the zero function. -/
  | notRational
  /-- A denominator has become zero because exponents wrapped around. -/
  | vanishedDivisor
deriving DecidableEq, Repr

/-- The reciprocal, unless the function is zero. -/
def inv (f : RationalFunction) : Except ReadFault RationalFunction :=
  if f.numer.isZero then .error .notRational else .ok ⟨f.denom, f.numer⟩

/-- The function in lowest terms, if there is something to divide by. -/
def settle (f : RationalFunction) : Except ReadFault RationalFunction :=
  if f.denom.isZero && !f.numer.isZero then .error .vanishedDivisor else .ok f.reduce

/-- The rational function in `x` that an expression denotes, in lowest terms.  Quotients by the zero
function and powers beyond the expansion limit denote none. -/
def read (x : String) : Expr → Except ReadFault RationalFunction
  | .var name => if name = x then .ok (ofPoly .x) else .error .notRational
  | .const c => .ok (ofPoly (.const c))
  | .add a b => do settle ((← read x a).add (← read x b))
  | .sub a b => do settle ((← read x a).sub (← read x b))
  | .mul a b => do settle ((← read x a).mul (← read x b))
  | .div a b => do
    let f ← read x a
    let g ← read x b
    settle (f.mul (← g.inv))
  | .neg a => do settle (← read x a).neg
  | .pow base e =>
    match e.integerExponent? with
    | none => .error .notRational
    | some k =>
      if expansionLimit < k.natAbs then .error .notRational
      else do
        let f ← read x base
        let g ← (if 0 ≤ k then .ok f else f.inv)
        settle (g.pow k.natAbs)
  | .call _ _ => .error .notRational

/-- The rational function in `x` that an expression denotes, if there is one. -/
def ofExpr? (x : String) (e : Expr) : Option RationalFunction := (read x e).toOption

end RationalFunction

end MarketAlgebra
