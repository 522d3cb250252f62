import MarketAlgebra.Expr.Evaluation
import MarketAlgebra.Integral.Antiderivative
import MarketAlgebra.Integral.Quadrature
import MarketAlgebra.Roots.Real

/-!
# Definite integrals

An integral between two bounds is exact where an antiderivative is known, and otherwise the exact
value of the float that quadrature gives.  Before that the integrand is searched for a pole between
the bounds (`poleBetween?`).  A rational integrand has its poles where its reduced denominator
vanishes, so a singularity that cancels is none.  In any other integrand every denominator is
searched, and every base of a power with an exponent of `-1` or less.
-/

namespace MarketAlgebra

namespace DefiniteIntegral

/-- The error that quadrature may have. -/
def tolerance : Float := 1e-10

/-- How often quadrature may halve the interval. -/
def maxDepth : Nat := 40

/-- The first root of a polynomial whose value lies between two bounds. -/
def rootBetween? (p : Poly) (low high : Float) : Option Float :=
  (Roots.realRoots p).findSome? fun root =>
    match root.evaluate with
    | .ok value => if low ≤ value ∧ value ≤ high then some value else none
    | .error _ => none

/-- Whether an exponent is a constant of `-1` or less. -/
def isPoleOrder (e : Expr) : Bool := (Antiderivative.constantExponent? e).any (· ≤ -1)

/-- The subexpressions that mention the variable and whose zeros are poles, from the inside out. -/
def poleCandidates (x : String) : Expr → List Expr
  | .var _ | .const _ => []
  | .add a b | .sub a b | .mul a b => poleCandidates x a ++ poleCandidates x b
  | .div a b => poleCandidates x a ++ poleCandidates x b ++ if b.mentions x then [b] else []
  | .pow a b =>
    poleCandidates x a ++ poleCandidates x b ++
      if isPoleOrder b && a.mentions x then [a] else []
  | .neg a | .call _ a => poleCandidates x a

/-- A point between two bounds where an expression has a pole. -/
def poleBetween? (e : Expr) (x : String) (a b : Float) : Except UndefinedValue (Option Float) :=
  let low := if a ≤ b then a else b
  let high := if a ≤ b then b else a
  match RationalFunction.read x e with
  | .ok f => .ok (rootBetween? f.denom low high)
  | .error .vanishedDivisor => .error .vanishedDivisor
  | .error .notRational =>
    (poleCandidates x e).findSomeM? fun base =>
      match RationalFunction.read x base with
      | .ok f => .ok (rootBetween? f.numer low high)
      | .error .vanishedDivisor => .error .vanishedDivisor
      | .error .notRational => .ok none

end DefiniteIntegral

open DefiniteIntegral in
/-- The integral of an expression in a variable from `lower` to `upper`. -/
def definiteIntegral (x : String) (e lower upper : Expr) : Except UndefinedValue Expr := do
  let diverges (why : UndefinedValue) : UndefinedValue := .divergent e lower upper why
  let a ← lower.evaluate
  let b ← upper.evaluate
  if a == b then return .zero
  if let some point := ← poleBetween? e x a b then throw (diverges (.pole x point))
  match ← (antiderivative x e).run with
  | some anti =>
    let value := simplify
      (.sub (simplify (anti.substitute x upper)) (simplify (anti.substitute x lower)))
    let _ ← value.evaluate.mapError diverges
    return value
  | none =>
    let f (point : Float) : Option Float := (e.evaluateAt x point).toOption
    match adaptiveSimpson f a b tolerance maxDepth with
    | none => throw (diverges .integrandNotFinite)
    | some value =>
      match Binary64.toRat value with
      | some r => return .const r
      | none => throw (.quadratureResult value)

end MarketAlgebra
