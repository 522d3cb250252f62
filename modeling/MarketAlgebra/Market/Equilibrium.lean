import MarketAlgebra.Formula.Shorthand
import MarketAlgebra.Market.Model

/-!
# Equilibrium

The firm produces where marginal revenue equals marginal cost.  `Model.equilibrium` asks the engine
for the solutions of `MR = MC`, selects one of them by a rule (`select`), and evaluates the market
there (`Model.equilibriumAt`).  With the quantity `q` and the price `p` there,

* the consumer surplus is the area under the demand from `0` to `q`, less the expenditure `p * q`;
* the producer surplus is the expenditure less the area under the marginal cost.

`equilibriumOfShorthand` starts from texts in which shorthand is allowed.  Both texts are always
read, and then the first failure ends the computation.
-/

namespace MarketAlgebra.Market

/-- The market at the equilibrium quantity. -/
structure Equilibrium where
  quantity : Scalar
  price : Scalar
  profit : Scalar
  revenue : Scalar
  cost : Scalar
  marginalRevenue : Scalar
  marginalCost : Scalar
  /-- What buyers would have paid on top of what they pay. -/
  consumerSurplus : Scalar
  /-- What the producer takes in on top of the variable cost. -/
  producerSurplus : Scalar
deriving DecidableEq

/-- The sum of both surpluses, approximately. -/
def Equilibrium.totalSurplus (r : Equilibrium) : Float :=
  r.consumerSurplus.approx + r.producerSurplus.approx

section

variable {m : Type → Type} [Monad m]

/-- A value that may be undefined, as a step of a market computation. -/
def defined {α : Type} (value : Except UndefinedValue α) : ExceptT Error m α :=
  ExceptT.mk (return value.mapError fun why => .symbolic (.undefined why))

/-! ## Selection -/

/-- A solution of `MR = MC` with its value as a quantity. -/
abbrev Candidate := Expr × Scalar

/-- The values of the solutions as quantities. -/
def candidates (engine : Engine m) (model : Model) (solutions : List Expr) :
    ExceptT Error m (List Candidate) :=
  solutions.mapM fun solution => do
    let x := model.symbol
    return (solution, ← ask (engine.substitute (.var x) x solution))

/-- The candidate with the highest profit among those that are not negative, where `best` is the
best one so far. -/
def mostProfitable (engine : Engine m) (model : Model) (best : Option (Candidate × Float)) :
    List Candidate → ExceptT Error m (Option Candidate)
  | [] => return best.map (·.1)
  | c :: cs => do
    if c.2.isNegative then mostProfitable engine model best cs
    else
      let profit ← ask (engine.substitute model.profit model.symbol c.1)
      let better := best.all fun b => b.2 < profit.approx
      mostProfitable engine model (if better then some (c, profit.approx) else best) cs

/-- The candidate that a rule chooses. -/
def choose (engine : Engine m) (rule : SelectionRule) (model : Model) (cs : List Candidate) :
    ExceptT Error m (Option Candidate) :=
  match rule with
  | .first => return cs.head?
  | .smallestNonNegative => return cs.find? fun c => !c.2.isNegative
  | .maxProfit => mostProfitable engine model none cs

/-- Why no candidate was chosen. -/
def noEquilibrium (rule : SelectionRule) (model : Model) (solutions : List Expr) : NoEquilibrium :=
  if solutions.isEmpty then
    .noSolution model.symbol model.marginalRevenue model.marginalCost
  else .noneAccepted rule solutions

/-- The solution that becomes the equilibrium quantity. -/
def select (engine : Engine m) (rule : SelectionRule) (model : Model) (solutions : List Expr) :
    ExceptT Error m Candidate := do
  let cs ← candidates engine model solutions
  match ← choose engine rule model cs with
  | some c => return c
  | none => throw (.noEquilibrium (noEquilibrium rule model solutions))

/-! ## The computation -/

/-- The market at a quantity, which is given as an expression and as a value. -/
def Model.equilibriumAt (engine : Engine m) (model : Model) (q : Candidate) :
    ExceptT Error m Equilibrium := do
  let x := model.symbol
  let (root, quantity) := q
  let value (e : Expr) : ExceptT Error m Scalar := ask (engine.substitute e x root)
  let price ← value model.price
  let revenue ← value model.revenue
  let cost ← value model.cost
  let profit ← value model.profit
  let marginalRevenue ← value model.marginalRevenue
  let marginalCost ← value model.marginalCost
  let demandArea ← ask (engine.integrate model.price x .zero root)
  let costArea ← ask (engine.integrate model.marginalCost x .zero root)
  let expenditure ← defined (price.mul quantity)
  let consumerSurplus ← defined (demandArea.sub expenditure)
  let producerSurplus ← defined (expenditure.sub costArea)
  return { quantity, price, profit, revenue, cost, marginalRevenue, marginalCost,
           consumerSurplus, producerSurplus }

/-- The equilibrium of a model. -/
def Model.equilibrium (engine : Engine m) (rule : SelectionRule) (model : Model) :
    ExceptT Error m Equilibrium := do
  let solutions ← ask (engine.solve model.marginalRevenue model.marginalCost model.symbol)
  model.equilibriumAt engine (← select engine rule model solutions)

/-- A demand and a cost as valid inputs.  Demand has to mention the quantity, cost may be constant.
The failure does not say which of them is at fault. -/
def readInputs (engine : Engine m) (x demand cost : String) :
    ExceptT Error m (Input × Input) := do
  let demand ← (Input.read engine demand x false : m _)
  let cost ← (Input.read engine cost x true : m _)
  match demand, cost with
  | .ok demand, .ok cost => return (demand, cost)
  | _, _ => throw (.invalidExpression x)

/-- The equilibrium of valid inputs. -/
def equilibriumOfInputs (engine : Engine m) (settings : Settings) (demand cost : Input) :
    ExceptT Error m Equilibrium := do
  let model ← Model.ofInputs engine demand cost settings.symbol
  model.equilibrium engine settings.rule

/-- The equilibrium of texts without shorthand. -/
def equilibriumOfTexts (engine : Engine m) (settings : Settings) (demand cost : String) :
    ExceptT Error m Equilibrium := do
  let (demand, cost) ← readInputs engine settings.symbol demand cost
  equilibriumOfInputs engine settings demand cost

/-- The equilibrium of texts in which shorthand is allowed. -/
def equilibriumOfShorthand (engine : Engine m) (settings : Settings) (demand cost : String) :
    ExceptT Error m Equilibrium :=
  equilibriumOfTexts engine settings (Formula.normalize demand) (Formula.normalize cost)

end

end MarketAlgebra.Market
