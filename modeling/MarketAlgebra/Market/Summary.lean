import MarketAlgebra.Market.Equilibrium

/-!
# Summaries

A model and an equilibrium as labelled lines.  Amounts have two decimal places.
-/

namespace MarketAlgebra.Market

/-- The functions of a model, one on a line. -/
def Model.summary (model : Model) : List String :=
  let line (name : String) (e : Expr) : String := name ++ "(" ++ model.symbol ++ ") = " ++ e.text
  [ line "P" model.price,
    line "C" model.cost,
    line "TR" model.revenue,
    line "π" model.profit,
    line "MR" model.marginalRevenue,
    line "MC" model.marginalCost ]

/-- The values of an equilibrium, one on a line. -/
def Equilibrium.summary (r : Equilibrium) : List String :=
  let line (label : String) (amount : Float) : String := label ++ ": " ++ Decimal.fixed 2 amount
  [ line "Profit Maximizing Price" r.price.approx,
    line "Profit Maximizing Quantity" r.quantity.approx,
    line "Marginal Cost" r.marginalCost.approx,
    line "Marginal Revenue" r.marginalRevenue.approx,
    line "Total Cost" r.cost.approx,
    line "Total Revenue" r.revenue.approx,
    line "Total Profit" r.profit.approx,
    line "Total Surplus" r.totalSurplus,
    line "Consumer Surplus" r.consumerSurplus.approx,
    line "Producer Surplus" r.producerSurplus.approx ]

end MarketAlgebra.Market
