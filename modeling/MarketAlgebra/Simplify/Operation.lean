import MarketAlgebra.Simplify.Sum

/-!
# Operations on simplified operands

One function for each kind of expression builds it from operands that are already simplified.  Sums
are in `MarketAlgebra.Simplify.Sum`; here are products, quotients, powers and function values.

A product with a sum is distributed over its terms, unless that gives more than `distributionLimit`
terms.  A quotient of constants is computed only when the divisor is not zero, and a power of
constants only for an integer exponent whose magnitude fits into 32 bits.  A power of a power is
merged only when the outer exponent is an integer, since then no branch of the root changes.
-/

namespace MarketAlgebra.Simplify

open MarketAlgebra.Expr

/-! ## Products -/

/-- The largest number of terms that distributing a product may give. -/
def distributionLimit : Nat := 64

/-- The number of terms of a sum. -/
def termCount : Expr → Nat
  | .add a b | .sub a b => termCount a + termCount b
  | .neg a => termCount a
  | _ => 1

/-- Whether an expression is a sum or a difference. -/
def isSum : Expr → Bool
  | .add _ _ | .sub _ _ => true
  | _ => false

/-- The product of two expressions that are not sums. -/
def mulFactors (x y : Expr) : Expr :=
  match x.constant?, y.constant? with
  | some c, some d => .const (c * d)
  | _, _ =>
    if x.isZero || y.isZero then zero
    else if x.isOne then y
    else if y.isOne then x
    else
      let (c, base) := split (.mul x y)
      scaled c (collectPowers base)

/-- The product of an expression that is not a sum with every term of another one. -/
def distributeRight (x : Expr) : Expr → Expr
  | .add a b => add (distributeRight x a) (distributeRight x b)
  | .sub a b => sub (distributeRight x a) (distributeRight x b)
  | y => mulFactors x y

/-- The product of every term of an expression with every term of another one. -/
def distribute (y : Expr) : Expr → Expr
  | .add a b => add (distribute y a) (distribute y b)
  | .sub a b => sub (distribute y a) (distribute y b)
  | x => distributeRight x y

/-- The product of two expressions. -/
def mul (x y : Expr) : Expr :=
  if (isSum x || isSum y) && distributionLimit < termCount x * termCount y then .mul x y
  else distribute y x

/-! ## Quotients -/

/-- The quotient of two expressions. -/
def div (x y : Expr) : Expr :=
  match x.constant?, y.constant? with
  | some n, some d => if d = 0 then .div x y else .const (n / d)
  | _, _ =>
    if x.isZero then zero
    else if y.isOne then x
    else
      let (c, numer) := split x
      let (d, denom) := split y
      if d = 0 then .div x y
      else if numer = denom then .const (c / d)
      else
        let core := if denom.isOne then numer else collectPowers (.div numer denom)
        if c / d = 1 then core else mul (.const (c / d)) core

/-! ## Powers -/

/-- A power of a constant, computed where that is possible. -/
def powConstants (b e : Rat) : Expr :=
  if e.isInt && e.num.natAbs < 1 <<< 32 && (0 ≤ e || b != 0) then
    .const (if 0 ≤ e then b ^ e.num.natAbs else b⁻¹ ^ e.num.natAbs)
  else .pow (.const b) (.const e)

/-- A power with a constant exponent. -/
def powConstant : Expr → Rat → Expr
  | x, e =>
    if e = 0 then one
    else if e = 1 then x
    else
      match x with
      | .const b => powConstants b e
      | .pow base (.const m) =>
        if e.isInt then powConstant base (m * e) else .pow (.pow base (.const m)) (.const e)
      | x => .pow x (.const e)

/-- A power of two expressions. -/
def pow (x : Expr) : Expr → Expr
  | .const e => powConstant x e
  | y => .pow x y

/-! ## Function values -/

/-- The value of a function.  Sine and tangent are odd and the cosine is even, the exponential and
the logarithm undo each other, and each function has one argument whose value is a constant. -/
def call : Fn → Expr → Expr
  | .sin, x => if x.isZero then zero else
    match x with
    | .neg a => neg (.call .sin a)
    | x => .call .sin x
  | .cos, x => if x.isZero then one else
    match x with
    | .neg a => .call .cos a
    | x => .call .cos x
  | .tan, x => if x.isZero then zero else
    match x with
    | .neg a => neg (.call .tan a)
    | x => .call .tan x
  | .exp, x => if x.isZero then one else
    match x with
    | .call .log a => a
    | x => .call .exp x
  | .log, x => if x.isOne then zero else
    match x with
    | .call .exp a => a
    | x => .call .log x

end MarketAlgebra.Simplify
