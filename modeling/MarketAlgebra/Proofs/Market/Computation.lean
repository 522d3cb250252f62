import MarketAlgebra.Engine.Exact
import MarketAlgebra.Market.Equilibrium
import MarketAlgebra.Proofs.Roots.Written

/-!
# Market computations

What the steps of a market computation with the built-in engine have done when they end with a
result.  A solution is selected from the list of all solutions with their values
(`run_select_eq_ok_iff`), and `Evaluated` holds the nine values of a market at it.  The statements
are equivalences, so they also tell what has to be computed to get a result
(`run_equilibriumOfInputs_eq_ok_iff`).  The computation says that there is no equilibrium only when
the rule has refused every solution (`of_noEquilibrium`).
-/

namespace MarketAlgebra.Market

variable {α β : Type}

/-! ## Steps -/

theorem run_bind {c : ExceptT Error Id α} {g : α → ExceptT Error Id β} :
    (c >>= g).run.run = c.run.run >>= fun a => (g a).run.run := by
  change (ExceptT.bindCont g c.run.run).run = _
  cases c.run.run <;> rfl

/-- A computation in two steps succeeds when both do. -/
theorem run_bind_eq_ok_iff {c : ExceptT Error Id α} {g : α → ExceptT Error Id β} {b : β} :
    (c >>= g).run.run = .ok b ↔ ∃ a, c.run.run = .ok a ∧ (g a).run.run = .ok b := by
  rw [run_bind, bind_eq_ok_iff]

/-- A computation in two steps fails when one of them does. -/
theorem run_bind_eq_error_iff {c : ExceptT Error Id α} {g : α → ExceptT Error Id β} {e : Error} :
    (c >>= g).run.run = .error e ↔
      c.run.run = .error e ∨ ∃ a, c.run.run = .ok a ∧ (g a).run.run = .error e := by
  rw [run_bind]
  cases c.run.run with
  | error e' =>
    change Except.error e' = Except.error e ↔ _
    simp
  | ok a =>
    change (g a).run.run = .error e ↔ _
    simp

theorem run_pure_eq_ok_iff {a b : α} :
    (pure a : ExceptT Error Id α).run.run = .ok b ↔ a = b :=
  ⟨Except.ok.inj, congrArg _⟩

/-- An answer of the engine is passed on. -/
theorem run_ask_eq_ok_iff {answer : Id (Except AlgebraError α)} {a : α} :
    (ask answer : ExceptT Error Id α).run.run = .ok a ↔ answer.run = .ok a :=
  mapError_eq_ok_iff

theorem run_defined_eq_ok_iff {value : Except UndefinedValue α} {a : α} :
    (defined value : ExceptT Error Id α).run.run = .ok a ↔ value = .ok a :=
  mapError_eq_ok_iff

/-- The built-in engine evaluates where a variable is replaced. -/
theorem run_substitute_eq_ok_iff {e r : Expr} {x : String} {v : Scalar} :
    (ask (Engine.exact.substitute e x r) : ExceptT Error Id Scalar).run.run = .ok v ↔
      Scalar.ofExpr (e.substitute x r) = .ok v :=
  run_ask_eq_ok_iff.trans mapError_eq_ok_iff

theorem run_integrate_eq_ok_iff {e lower upper : Expr} {x : String} {v : Scalar} :
    (ask (Engine.exact.integrate e x lower upper) : ExceptT Error Id Scalar).run.run = .ok v ↔
      ∃ value, definiteIntegral x e lower upper = .ok value ∧ Scalar.ofExpr value = .ok v :=
  (run_ask_eq_ok_iff.trans mapError_eq_ok_iff).trans bind_eq_ok_iff

/-- A value is the simplified expression with its approximation. -/
theorem ofExpr_eq_ok_iff {e : Expr} {v : Scalar} :
    Scalar.ofExpr e = .ok v ↔ v.exact = simplify e ∧ (simplify e).evaluate = .ok v.approx := by
  rw [Scalar.ofExpr]
  refine bind_eq_ok_iff.trans ⟨?_, ?_⟩
  · rintro ⟨a, ha, h⟩
    obtain rfl := Except.ok.inj h
    exact ⟨rfl, ha⟩
  · obtain ⟨exact, approx⟩ := v
    rintro ⟨rfl, h⟩
    exact ⟨approx, h, rfl⟩

/-! ## Inputs -/

/-- A text is valid when it can be read and, unless constants are allowed, mentions the quantity. -/
theorem run_read_eq_ok_iff {text x : String} {allowConstant : Bool} {input : Input} :
    (Input.read Engine.exact text x allowConstant).run = .ok input ↔
      (allowConstant = true ∨ Formula.hasWord text x = true) ∧
        Formula.readIn text x = .ok input.expr ∧ text = input.text := by
  obtain ⟨text', e⟩ := input
  have hread : (Input.read Engine.exact text x allowConstant).run =
      if !allowConstant && !Formula.hasWord text x then .error (.missingVariable x)
      else ((Formula.readIn text x).mapError .unreadable).map (Input.mk text) := by
    simp only [Input.read, Engine.exact]
    cases Formula.readIn text x <;> split <;> rfl
  rw [hread]
  cases allowConstant <;> cases Formula.hasWord text x <;> cases Formula.readIn text x <;>
    simp [Except.mapError, Except.map, and_comm]

/-- Demand and cost are valid when each of them is. -/
theorem run_readInputs_eq_ok_iff {x demand cost : String} {inputs : Input × Input} :
    (readInputs Engine.exact x demand cost).run.run = .ok inputs ↔
      (Input.read Engine.exact demand x false).run = .ok inputs.1 ∧
        (Input.read Engine.exact cost x true).run = .ok inputs.2 := by
  obtain ⟨d, c⟩ := inputs
  rw [readInputs]
  generalize Input.read Engine.exact demand x false = rd
  generalize Input.read Engine.exact cost x true = rc
  rcases rd with _ | d' <;> rcases rc with _ | c'
  case ok.ok =>
    change Except.ok (d', c') = Except.ok (d, c) ↔ Except.ok d' = _ ∧ Except.ok c' = _
    simp
  case error.error => exact iff_of_false nofun fun h => by cases h.1
  case error.ok => exact iff_of_false nofun fun h => by cases h.1
  case ok.error => exact iff_of_false nofun fun h => by cases h.2

/-! ## The model -/

/-- The model of a demand and a cost. -/
def modelOf (demand cost : Expr) (x : String) : Model where
  symbol := x
  price := demand
  cost := cost
  revenue := .mul demand (.var x)
  profit := .sub (.mul demand (.var x)) cost
  marginalRevenue := simplify (derivative x (.mul demand (.var x)))
  marginalCost := simplify (derivative x cost)

/-- The built-in engine always finds the model. -/
theorem run_ofInputs (demand cost : Input) (x : String) :
    (Model.ofInputs Engine.exact demand cost x).run.run = .ok (modelOf demand.expr cost.expr x) :=
  rfl

/-! ## Selection -/

/-- The candidates are the solutions with their values. -/
theorem run_candidates_eq_ok_iff {model : Model} {solutions : List Expr} {cs : List Candidate} :
    (candidates Engine.exact model solutions).run.run = .ok cs ↔
      cs.map (·.1) = solutions ∧ ∀ c ∈ cs, Scalar.ofExpr c.1 = .ok c.2 := by
  induction solutions generalizing cs with
  | nil =>
    rw [List.map_eq_nil_iff]
    refine run_pure_eq_ok_iff.trans ⟨?_, fun h => h.1.symm⟩
    rintro rfl
    exact ⟨rfl, nofun⟩
  | cons root roots ih =>
    have hvalue : (Expr.var model.symbol).substitute model.symbol root = root := if_pos rfl
    simp only [candidates] at ih
    simp only [candidates, List.mapM_cons, run_bind_eq_ok_iff, run_pure_eq_ok_iff,
      run_substitute_eq_ok_iff, hvalue, ih]
    constructor
    · rintro ⟨c, ⟨v, hv, rfl⟩, rest, ⟨hmap, hvalues⟩, rfl⟩
      exact ⟨by rw [List.map_cons, hmap], List.forall_mem_cons.2 ⟨hv, hvalues⟩⟩
    · rintro ⟨hmap, hvalues⟩
      obtain ⟨c, rest, rfl, rfl, hrest⟩ := List.map_eq_cons_iff.1 hmap
      obtain ⟨hv, hvalues⟩ := List.forall_mem_cons.1 hvalues
      exact ⟨c, ⟨c.2, hv, rfl⟩, rest, ⟨hrest, hvalues⟩, rfl⟩

/-- The most profitable candidate is one of those that were compared. -/
theorem mem_of_mostProfitable {model : Model} {best : Option (Candidate × Float)}
    {cs : List Candidate} {c : Candidate}
    (h : (mostProfitable Engine.exact model best cs).run.run = .ok (some c)) :
    c ∈ cs ∨ best.map (·.1) = some c := by
  induction cs generalizing best with
  | nil => exact .inr (run_pure_eq_ok_iff.1 h)
  | cons d cs ih =>
    rw [mostProfitable] at h
    split at h
    case isTrue => exact (ih h).imp_left (List.mem_cons_of_mem d)
    case isFalse =>
      obtain ⟨profit, -, h⟩ := run_bind_eq_ok_iff.1 h
      rcases ih h with hmem | hbest
      · exact .inl (List.mem_cons_of_mem d hmem)
      · split at hbest
        · obtain rfl := Option.some.inj hbest
          exact .inl List.mem_cons_self
        · exact .inr hbest

/-- A chosen candidate is one of the list. -/
theorem mem_of_choose {rule : SelectionRule} {model : Model} {cs : List Candidate} {c : Candidate}
    (h : (choose Engine.exact rule model cs).run.run = .ok (some c)) : c ∈ cs := by
  cases rule with
  | first => exact List.mem_of_head? (run_pure_eq_ok_iff.1 h)
  | smallestNonNegative => exact List.mem_of_find?_eq_some (run_pure_eq_ok_iff.1 h)
  | maxProfit => exact (mem_of_mostProfitable h).resolve_right nofun

/-- A solution is selected when it is chosen from the solutions with their values. -/
theorem run_select_eq_ok_iff {rule : SelectionRule} {model : Model} {solutions : List Expr}
    {c : Candidate} : (select Engine.exact rule model solutions).run.run = .ok c ↔
      ∃ cs, cs.map (·.1) = solutions ∧ (∀ c ∈ cs, Scalar.ofExpr c.1 = .ok c.2) ∧
        (choose Engine.exact rule model cs).run.run = .ok (some c) := by
  simp only [select, run_bind_eq_ok_iff, run_candidates_eq_ok_iff, and_assoc]
  refine exists_congr fun cs => and_congr_right fun _ => and_congr_right fun _ => ?_
  constructor
  · rintro ⟨chosen, hchosen, h⟩
    cases chosen with
    | none => cases h
    | some d => rwa [← run_pure_eq_ok_iff.1 h]
  · intro h
    exact ⟨some c, h, rfl⟩

/-! ## Evaluation -/

/-- The nine values of a market at a solution, each with the computation that it comes from. -/
structure Evaluated (model : Model) (root : Expr) (r : Equilibrium) : Prop where
  quantity : Scalar.ofExpr root = .ok r.quantity
  price : Scalar.ofExpr (model.price.substitute model.symbol root) = .ok r.price
  revenue : Scalar.ofExpr (model.revenue.substitute model.symbol root) = .ok r.revenue
  cost : Scalar.ofExpr (model.cost.substitute model.symbol root) = .ok r.cost
  profit : Scalar.ofExpr (model.profit.substitute model.symbol root) = .ok r.profit
  marginalRevenue :
    Scalar.ofExpr (model.marginalRevenue.substitute model.symbol root) = .ok r.marginalRevenue
  marginalCost :
    Scalar.ofExpr (model.marginalCost.substitute model.symbol root) = .ok r.marginalCost
  surplus : ∃ expenditure demandArea costArea demandIntegral costIntegral,
    r.price.mul r.quantity = .ok expenditure ∧
    definiteIntegral model.symbol model.price .zero root = .ok demandIntegral ∧
    Scalar.ofExpr demandIntegral = .ok demandArea ∧
    definiteIntegral model.symbol model.marginalCost .zero root = .ok costIntegral ∧
    Scalar.ofExpr costIntegral = .ok costArea ∧
    demandArea.sub expenditure = .ok r.consumerSurplus ∧
    expenditure.sub costArea = .ok r.producerSurplus

/-- The market is evaluated at a solution with its value exactly when all nine values are. -/
theorem run_equilibriumAt_eq_ok_iff {model : Model} {c : Candidate} {r : Equilibrium}
    (hc : Scalar.ofExpr c.1 = .ok c.2) :
    (model.equilibriumAt Engine.exact c).run.run = .ok r ↔
      Evaluated model c.1 r := by
  obtain ⟨root, quantity⟩ := c
  simp only [Model.equilibriumAt, run_bind_eq_ok_iff, run_pure_eq_ok_iff,
    run_substitute_eq_ok_iff, run_integrate_eq_ok_iff, run_defined_eq_ok_iff]
  constructor
  · rintro ⟨price, hprice, revenue, hrevenue, cost, hcost, profit, hprofit, mr, hmr, mc, hmc,
      demandArea, ⟨dv, hdv, hda⟩, costArea, ⟨cv, hcv, hca⟩, expenditure, hexp, cs, hcs, ps, hps,
      rfl⟩
    exact ⟨hc, hprice, hrevenue, hcost, hprofit, hmr, hmc,
      expenditure, demandArea, costArea, dv, cv, hexp, hdv, hda, hcv, hca, hcs, hps⟩
  · intro h
    obtain ⟨expenditure, demandArea, costArea, dv, cv, hexp, hdv, hda, hcv, hca, hcs, hps⟩ :=
      h.surplus
    obtain rfl : quantity = r.quantity := Except.ok.inj (hc.symm.trans h.quantity)
    exact ⟨r.price, h.price, r.revenue, h.revenue, r.cost, h.cost, r.profit, h.profit,
      r.marginalRevenue, h.marginalRevenue, r.marginalCost, h.marginalCost, demandArea,
      ⟨dv, hdv, hda⟩, costArea, ⟨cv, hcv, hca⟩, expenditure, hexp, r.consumerSurplus, hcs,
      r.producerSurplus, hps, rfl⟩

section

variable {settings : Settings} {demand cost : Input} {r : Equilibrium}

/-- A market computation ends with the values at the chosen solution. -/
theorem run_equilibriumOfInputs_eq_ok_iff :
    (equilibriumOfInputs Engine.exact settings demand cost).run.run = .ok r ↔
      ∃ cs c, solve (modelOf demand.expr cost.expr settings.symbol).marginalRevenue
          (modelOf demand.expr cost.expr settings.symbol).marginalCost settings.symbol =
            .ok (cs.map (·.1)) ∧
        (∀ c ∈ cs, Scalar.ofExpr c.1 = .ok c.2) ∧
        (choose Engine.exact settings.rule (modelOf demand.expr cost.expr settings.symbol)
          cs).run.run = .ok (some c) ∧
        Evaluated (modelOf demand.expr cost.expr settings.symbol) c.1 r := by
  simp only [equilibriumOfInputs, Model.equilibrium, run_bind_eq_ok_iff, run_ofInputs,
    Except.ok.injEq, exists_eq_left', run_ask_eq_ok_iff, run_select_eq_ok_iff]
  constructor
  · rintro ⟨solutions, hsolve, c, ⟨cs, rfl, hvalues, hchoose⟩, h⟩
    have hvalue := hvalues c (mem_of_choose hchoose)
    exact ⟨cs, c, hsolve, hvalues, hchoose, (run_equilibriumAt_eq_ok_iff hvalue).1 h⟩
  · rintro ⟨cs, c, hsolve, hvalues, hchoose, h⟩
    have hvalue := hvalues c (mem_of_choose hchoose)
    exact ⟨_, hsolve, c, ⟨cs, rfl, hvalues, hchoose⟩, (run_equilibriumAt_eq_ok_iff hvalue).2 h⟩

/-- A market computation that ends with a result has evaluated the market at a solution. -/
theorem exists_evaluated
    (h : (equilibriumOfInputs Engine.exact settings demand cost).run.run = .ok r) :
    ∃ solutions, ∃ root ∈ solutions,
      solve (modelOf demand.expr cost.expr settings.symbol).marginalRevenue
        (modelOf demand.expr cost.expr settings.symbol).marginalCost settings.symbol =
          .ok solutions ∧
      Evaluated (modelOf demand.expr cost.expr settings.symbol) root r := by
  obtain ⟨cs, c, hsolve, -, hchoose, h⟩ := run_equilibriumOfInputs_eq_ok_iff.1 h
  exact ⟨_, c.1, List.mem_map_of_mem (mem_of_choose hchoose), hsolve, h⟩

end

/-! ## No equilibrium -/

/-- The computation never says that there is no equilibrium. -/
def NeverNoEquilibrium (c : ExceptT Error Id α) : Prop :=
  ∀ why, c.run.run ≠ .error (.noEquilibrium why)

namespace NeverNoEquilibrium

theorem pure (a : α) : NeverNoEquilibrium (pure a : ExceptT Error Id α) := nofun

/-- Two steps that never say it make a computation that does not either. -/
theorem bind {c : ExceptT Error Id α} {g : α → ExceptT Error Id β} (hc : NeverNoEquilibrium c)
    (hg : ∀ a, NeverNoEquilibrium (g a)) : NeverNoEquilibrium (c >>= g) := by
  intro why h
  rcases run_bind_eq_error_iff.1 h with h | ⟨a, -, h⟩
  · exact hc why h
  · exact hg a why h

theorem ask (answer : Id (Except AlgebraError α)) :
    NeverNoEquilibrium (ask answer : ExceptT Error Id α) := by
  intro why h
  change answer.run.mapError Error.symbolic = _ at h
  cases hanswer : answer.run with
  | error e => rw [hanswer] at h; cases h
  | ok a => rw [hanswer] at h; cases h

theorem defined (value : Except UndefinedValue α) :
    NeverNoEquilibrium (defined value : ExceptT Error Id α) := by
  intro why h
  cases value with
  | error e => cases h
  | ok a => cases h

theorem candidates (model : Model) (solutions : List Expr) :
    NeverNoEquilibrium (candidates Engine.exact model solutions) := by
  induction solutions with
  | nil => exact .pure _
  | cons root roots ih =>
    simp only [Market.candidates, List.mapM_cons] at ih ⊢
    exact ((ask _).bind fun v => .pure _).bind fun c => ih.bind fun cs => .pure _

theorem mostProfitable (model : Model) (best : Option (Candidate × Float)) (cs : List Candidate) :
    NeverNoEquilibrium (mostProfitable Engine.exact model best cs) := by
  induction cs generalizing best with
  | nil => exact .pure _
  | cons c cs ih =>
    rw [Market.mostProfitable]
    split
    · exact ih best
    · exact (ask _).bind fun profit => ih _

theorem choose (rule : SelectionRule) (model : Model) (cs : List Candidate) :
    NeverNoEquilibrium (choose Engine.exact rule model cs) := by
  cases rule with
  | first => exact .pure _
  | smallestNonNegative => exact .pure _
  | maxProfit => exact mostProfitable model none cs

theorem equilibriumAt (model : Model) (c : Candidate) :
    NeverNoEquilibrium (model.equilibriumAt Engine.exact c) :=
  (ask _).bind fun _ => (ask _).bind fun _ => (ask _).bind fun _ => (ask _).bind fun _ =>
    (ask _).bind fun _ => (ask _).bind fun _ => (ask _).bind fun _ => (ask _).bind fun _ =>
    (defined _).bind fun _ => (defined _).bind fun _ => (defined _).bind fun _ => .pure _

end NeverNoEquilibrium

/-- There is no equilibrium when the rule chooses none of the solutions. -/
theorem of_noEquilibrium {settings : Settings} {demand cost : Input} {why : NoEquilibrium}
    (h : (equilibriumOfInputs Engine.exact settings demand cost).run.run =
      .error (.noEquilibrium why)) :
    ∃ cs, solve (modelOf demand.expr cost.expr settings.symbol).marginalRevenue
        (modelOf demand.expr cost.expr settings.symbol).marginalCost settings.symbol =
          .ok (cs.map (·.1)) ∧
      (∀ c ∈ cs, Scalar.ofExpr c.1 = .ok c.2) ∧
      (choose Engine.exact settings.rule (modelOf demand.expr cost.expr settings.symbol)
        cs).run.run = .ok none := by
  rcases run_bind_eq_error_iff.1 h with h | ⟨model, hmodel, h⟩
  · cases h
  obtain rfl := Except.ok.inj ((run_ofInputs demand cost settings.symbol).symm.trans hmodel)
  rcases run_bind_eq_error_iff.1 h with h | ⟨solutions, hsolve, h⟩
  · exact absurd h (NeverNoEquilibrium.ask _ why)
  rcases run_bind_eq_error_iff.1 h with h | ⟨c, -, h⟩
  swap
  · exact absurd h (NeverNoEquilibrium.equilibriumAt _ c why)
  rcases run_bind_eq_error_iff.1 h with h | ⟨cs, hcs, h⟩
  · exact absurd h (NeverNoEquilibrium.candidates _ _ why)
  rcases run_bind_eq_error_iff.1 h with h | ⟨chosen, hchoose, h⟩
  · exact absurd h (NeverNoEquilibrium.choose _ _ _ why)
  obtain ⟨rfl, hvalues⟩ := run_candidates_eq_ok_iff.1 hcs
  cases chosen with
  | none => exact ⟨cs, run_ask_eq_ok_iff.1 hsolve, hvalues, hchoose⟩
  | some c => cases h

end MarketAlgebra.Market
