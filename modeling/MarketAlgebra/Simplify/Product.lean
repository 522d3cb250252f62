import MarketAlgebra.Expr.Order

/-!
# Products in normal form

A product is brought into normal form in two steps.  `split` takes the rational coefficient out of
it and leaves the other factors, and `collectPowers` adds up the exponents of equal factors.

Quotients and negative powers share one table of exponents with the products, so `Q * (1 / Q^2)`
becomes `1 / Q`.  Only integer constants count as exponents; any other power is a factor of its
own.  Factors that are left with a negative exponent go into a single denominator.
-/

namespace MarketAlgebra.Simplify

open MarketAlgebra.Expr

/-- The negation of an expression, without a double one. -/
def neg : Expr → Expr
  | .const c => .const (-c)
  | .neg a => a
  | a => .neg a

/-! ## Factors -/

/-- The factors of a product, ones left out. -/
def factors : Expr → List Expr
  | .mul a b => factors a ++ factors b
  | e => if e.isOne then [] else [e]

/-- The product of some factors in ascending order, ones left out. -/
def product (fs : List Expr) : Expr :=
  match Expr.sort (fs.filter fun f => !f.isOne) with
  | [] => one
  | f :: fs => fs.foldl .mul f

/-- The rational coefficient of an expression and the product of its other factors. -/
def split : Expr → Rat × Expr
  | .const c => (c, one)
  | .neg a =>
    let (c, base) := split a
    (-c, base)
  | .mul a b =>
    let (c, s) := split a
    let (d, t) := split b
    (c * d, product (factors s ++ factors t))
  | e => (1, e)

/-- An expression times a rational coefficient, for an expression that has none of its own. -/
def scaled (c : Rat) (base : Expr) : Expr :=
  if c = 0 then zero
  else if base.isOne then .const c
  else if c = 1 then base
  else if c = -1 then neg base
  else .mul (.const c) base

/-! ## Exponents -/

/-- Bases with the exponents they have in a product, each base once. -/
abbrev Exponents := List (Expr × Rat)

/-- The table with an exponent added to that of a base. -/
def addExponent (base : Expr) (e : Rat) : Exponents → Exponents
  | [] => [(base, e)]
  | (b, d) :: table => if b = base then (b, d + e) :: table else (b, d) :: addExponent base e table

/-- The table with the factors of a product added.  The sign is `1` for factors above the bar and
`-1` for those below it. -/
def addFactors (sign : Rat) : Expr → Exponents → Exponents
  | .mul a b, table => addFactors sign b (addFactors sign a table)
  | .div a b, table => addFactors (-sign) b (addFactors sign a table)
  | .pow base (.const e), table =>
    if e.isInt then addExponent base (e * sign) table
    else addExponent (.pow base (.const e)) sign table
  | e, table => if e.isOne then table else addExponent e sign table

/-- A base with an exponent, which is left out when it is one. -/
def power (base : Expr) (e : Rat) : Expr :=
  if e = 1 then base else .pow base (.const e)

/-- The product with the exponents of equal factors added up. -/
def collectPowers (e : Expr) : Expr :=
  let table := addFactors 1 e []
  let numer := product ((table.filter fun t => 0 < t.2).map fun t => power t.1 t.2)
  let denoms := (table.filter fun t => t.2 < 0).map fun t => power t.1 (-t.2)
  if denoms.isEmpty then numer else .div numer (product denoms)

end MarketAlgebra.Simplify
