import MarketAlgebra.Engine.Exact
import MarketAlgebra.Market.Summary

/-!
# The calculator

Everything in this module takes texts.  Formulas are read over any names, results are simplified,
and markets are computed with the built-in engine and the default settings.
-/

namespace MarketAlgebra.Calculator

open Market (Equilibrium Error)

/-! ## Formulas -/

/-- The expression that a text denotes. -/
def parse (text : String) : Except AlgebraError Expr := Formula.read text

/-- The simplified expression. -/
def simplify (text : String) : Except AlgebraError Expr := do
  return MarketAlgebra.simplify (← parse text)

/-- The simplified derivative. -/
def differentiate (text x : String) : Except AlgebraError Expr := do
  return MarketAlgebra.simplify (derivative x (← parse text))

/-- The text of the simplified expression. -/
def simplifiedText (text : String) : Except AlgebraError String := do
  return (← simplify text).text

/-- The text of the simplified derivative. -/
def derivativeText (text x : String) : Except AlgebraError String := do
  return (← differentiate text x).text

/-- The text of the integral between two bounds. -/
def integralText (text x lower upper : String) : Except AlgebraError String := do
  let e ← parse text
  let lower ← parse lower
  let upper ← parse upper
  let value ← (definiteIntegral x e lower upper).mapError .undefined
  return (MarketAlgebra.simplify value).text

/-- The texts of the real solutions of an equation. -/
def solutionTexts (equation x : String) : Except AlgebraError (List String) := do
  let (left, right) ← Formula.readEquation equation
  return (← solve left right x).map Expr.text

/-! ## Markets -/

/-- Whether a text is a valid demand or, where constants are allowed, a valid cost. -/
def isValid (text : String) (allowConstant : Bool) : Bool :=
  (Market.Input.read Engine.exact text "Q" allowConstant).run.isOk

/-- The equilibrium of texts without shorthand. -/
def equilibrium (demand cost : String) : Except Error Equilibrium :=
  (Market.equilibriumOfTexts Engine.exact {} demand cost).run.run

/-- The equilibrium of texts in which shorthand is allowed. -/
def equilibriumOfShorthand (demand cost : String) : Except Error Equilibrium :=
  (Market.equilibriumOfShorthand Engine.exact {} demand cost).run.run

/-- The equilibrium of texts in which shorthand is allowed, as labelled lines. -/
def summary (demand cost : String) : Except Error (List String) := do
  return (← equilibriumOfShorthand demand cost).summary

end MarketAlgebra.Calculator
