import MarketAlgebra.Market.Error
import MarketAlgebra.Market.Input

/-!
# The model of a market

A single seller faces an inverse demand `P(Q)` and has the total cost `C(Q)`.  Revenue is
`P(Q) * Q` and profit is revenue less cost.  The marginal values are the derivatives of revenue and
cost, and the only part of the model that an engine computes.
-/

namespace MarketAlgebra.Market

/-- The functions of one market, as expressions in the quantity. -/
structure Model where
  /-- The symbol of the quantity. -/
  symbol : String
  /-- Inverse demand. -/
  price : Expr
  /-- Total cost. -/
  cost : Expr
  /-- Total revenue. -/
  revenue : Expr
  /-- Profit. -/
  profit : Expr
  /-- The derivative of revenue. -/
  marginalRevenue : Expr
  /-- The derivative of cost. -/
  marginalCost : Expr
deriving DecidableEq

section

variable {m : Type → Type} [Monad m]

/-- The answer of an engine, where a failure of the engine is one of the market computation. -/
def ask {α : Type} (answer : m (Except AlgebraError α)) : ExceptT Error m α :=
  ExceptT.mk do return (← answer).mapError .symbolic

/-- The model of a demand and a cost. -/
def Model.ofInputs (engine : Engine m) (demand cost : Input) (x : String) :
    ExceptT Error m Model := do
  let price := demand.expr
  let cost := cost.expr
  let revenue : Expr := .mul price (.var x)
  let profit : Expr := .sub revenue cost
  let marginalRevenue ← ask (engine.differentiate revenue x)
  let marginalCost ← ask (engine.differentiate cost x)
  return { symbol := x, price, cost, revenue, profit, marginalRevenue, marginalCost }

end

end MarketAlgebra.Market
