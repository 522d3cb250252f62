/-!
# Settings of a market computation
-/

namespace MarketAlgebra.Market

/-- Which solution of `MR = MC` becomes the equilibrium quantity. -/
inductive SelectionRule where
  /-- The smallest solution that is not negative. -/
  | smallestNonNegative
  /-- The first solution, even if it is negative. -/
  | first
  /-- The solution with the highest profit among those that are not negative, and of several such
  solutions the first one. -/
  | maxProfit
deriving DecidableEq, Repr

/-- The name of a rule in messages. -/
def SelectionRule.name : SelectionRule → String
  | .smallestNonNegative => "SmallestNonNegative"
  | .first => "First"
  | .maxProfit => "MaxProfit"

/-- The settings of a market computation. -/
structure Settings where
  /-- The symbol of the quantity. -/
  symbol : String := "Q"
  /-- Which solution becomes the equilibrium quantity. -/
  rule : SelectionRule := .smallestNonNegative
  /-- The number of samples of a curve. -/
  points : Nat := 500
  /-- The samples reach from zero to this multiple of the equilibrium quantity. -/
  span : Float := 1.5

end MarketAlgebra.Market
