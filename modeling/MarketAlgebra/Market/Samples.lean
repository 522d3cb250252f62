import MarketAlgebra.Expr.Evaluation
import MarketAlgebra.Market.Equilibrium

/-!
# Samples of the market curves

The demand and profit curves are sampled at evenly spaced quantities from zero to a multiple of the
equilibrium quantity.  Where a curve is undefined its sample is not a number.
-/

namespace MarketAlgebra.Market

/-- Samples of the demand and profit curves. -/
structure Samples where
  /-- The sampled quantities. -/
  quantities : List Float
  /-- The prices at these quantities. -/
  prices : List Float
  /-- The profits at these quantities. -/
  profits : List Float
  /-- Whether a quantity lies between zero and the equilibrium quantity. -/
  inSurplus : List Bool

namespace Samples

/-- The value of an undefined sample. -/
def undefinedSample : Float := 0 / 0

/-- A number of evenly spaced quantities from zero to a last one. -/
def spaced (points : Nat) (last : Float) : List Float :=
  let step := if 1 < points then last / Float.ofNat (points - 1) else 0
  (List.range points).map fun i => step * Float.ofNat i

/-- The samples from zero to a multiple of a quantity. -/
def upTo (model : Model) (quantity : Float) (points : Nat) (span : Float) : Samples :=
  let quantities := spaced points (span * quantity)
  let curve (e : Expr) : List Float := quantities.map fun q =>
    (e.evaluateAt model.symbol q).toOption.getD undefinedSample
  { quantities
    prices := curve model.price
    profits := curve model.profit
    inSurplus := quantities.map fun q => q.abs ≤ quantity.abs }

/-- The samples around an equilibrium. -/
def around (settings : Settings) (model : Model) (r : Equilibrium) : Samples :=
  upTo model r.quantity.approx settings.points settings.span

end Samples

end MarketAlgebra.Market
