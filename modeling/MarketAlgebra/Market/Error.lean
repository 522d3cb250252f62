import MarketAlgebra.Error
import MarketAlgebra.Market.Settings

/-!
# Failures of a market computation

There are three kinds: an input that is not valid, a market without an equilibrium, and a failure of
the engine, which is passed on as it is.
-/

namespace MarketAlgebra.Market

/-- Why a market has no equilibrium. -/
inductive NoEquilibrium where
  /-- `MR = MC` has no real solution. -/
  | noSolution (x : String) (marginalRevenue marginalCost : Expr)
  /-- The rule accepts none of the solutions. -/
  | noneAccepted (rule : SelectionRule) (solutions : List Expr)
deriving DecidableEq

/-- A failure of a market computation. -/
inductive Error where
  /-- Demand or cost is no valid expression, or demand does not depend on the quantity. -/
  | invalidExpression (x : String)
  | noEquilibrium (why : NoEquilibrium)
  /-- The engine failed. -/
  | symbolic (cause : AlgebraError)
deriving DecidableEq

/-- Why there is no equilibrium. -/
def NoEquilibrium.description : NoEquilibrium → String
  | .noSolution x mr mc =>
    "MR = MC has no real solution for " ++ x ++ " (MR = " ++ mr.text ++ ", MC = " ++ mc.text ++ ")"
  | .noneAccepted rule solutions =>
    "no root of MR = MC satisfies " ++ rule.name ++ ": ["
      ++ ", ".intercalate (solutions.map Expr.text) ++ "]"

/-- The sentence that reports a failure. -/
def Error.message : Error → String
  | .invalidExpression x =>
    "invalid expression: demand and cost must be valid expressions in " ++ x
      ++ ", and demand must depend on " ++ x
  | .noEquilibrium why => "no equilibrium: " ++ why.description
  | .symbolic cause => "symbolic computation failed: " ++ cause.message

end MarketAlgebra.Market
