import MarketAlgebra.Proofs.Market.Transcript

/-!
# Failures of the engine in market computations

Both texts are always read, and a text that is not valid ends the computation only after that
(`ends_readInputs`).  From then on the first failure of the engine ends the computation and is its
result.  This goes step by step: the model, the values of the solutions, the choice of one of them
and the evaluation of the market there.  Each step has one lemma, which tells its calls and what
comes of the answers to them when none of them is a failure.
`engine_failures_surface` puts them together.
-/

namespace MarketAlgebra.Market

variable {σ α : Type}

/-! ## Reading -/

/-- How reading a text ends. -/
inductive ReadAs (text x : String) (allowConstant : Bool) :
    Except InputFault Input → List Exchange → Prop
  | missing : (!allowConstant && !Formula.hasWord text x) = true →
      ReadAs text x allowConstant (.error (.missingVariable x)) []
  | unreadable (cause : AlgebraError) : (!allowConstant && !Formula.hasWord text x) = false →
      ReadAs text x allowConstant (.error (.unreadable cause)) [.parse text x (.error cause)]
  | read (e : Expr) : (!allowConstant && !Formula.hasWord text x) = false →
      ReadAs text x allowConstant (.ok ⟨text, e⟩) [.parse text x (.ok e)]

/-- A text that may be constant is given to the engine in any case. -/
theorem ReadAs.map_call {text x : String} {input : Except InputFault Input} {log : List Exchange}
    (h : ReadAs text x true input log) : log.map Exchange.call = [.parse text x] := by
  cases h with
  | missing h => cases h
  | unreadable cause h => rfl
  | read e h => rfl

variable (engine : Engine (StateM σ))

/-- The answer to the call that reads a text is passed on, also when it is a failure. -/
theorem ends_parse (text x : String) :
    Ends (liftM (engine.parse text x) : ExceptT Error (StateM σ) _)
      (liftM (engine.observed.parse text x))
      (Returns fun answer log => log = [.parse text x answer]) :=
  fun s => ⟨_, _, ((engine.parse text x).run s).2, ⟨rfl, fun _ => rfl⟩, _, rfl, rfl⟩

/-- A text that is not valid does not end the computation. -/
theorem ends_read (text x : String) (allowConstant : Bool) :
    Ends (liftM (Input.read engine text x allowConstant) : ExceptT Error (StateM σ) _)
      (liftM (Input.read engine.observed text x allowConstant))
      (Returns (ReadAs text x allowConstant)) := by
  cases hword : !allowConstant && !Formula.hasWord text x with
  | true =>
    rw [Input.read, Input.read, if_pos hword, if_pos hword, liftM_pure, liftM_pure]
    exact .pure_of ⟨_, rfl, .missing hword⟩
  | false =>
    have hword' := Bool.eq_false_iff.1 hword
    rw [Input.read, Input.read, if_neg hword', if_neg hword', liftM_bind, liftM_bind]
    refine ((ends_parse engine text x).bind_ok
      (Q := fun answer => Returns fun input rest =>
        rest = [] ∧ ReadAs text x allowConstant input [.parse text x answer]) ?_).mono ?_
    · rintro (cause | e) <;> rw [liftM_pure, liftM_pure]
      · exact .pure_of ⟨_, rfl, rfl, .unreadable cause hword⟩
      · exact .pure_of ⟨_, rfl, rfl, .read e hword⟩
    · rintro r _ ⟨answer, _, _, rfl, rfl, input, hr, rfl, h⟩
      exact ⟨input, hr, h⟩

/-- The calls that read demand and cost.  Cost is read in any case. -/
def readingCalls (x demand cost : String) : List Call :=
  (if Formula.hasWord demand x then [.parse demand x] else []) ++ [.parse cost x]

/-- The inputs are valid when the demand mentions the quantity and no call fails. -/
inductive ReadBoth (x demand cost : String) : Ending (Input × Input)
  | valid {d c : Expr} : Formula.hasWord demand x = true →
      ReadBoth x demand cost (.ok (⟨demand, d⟩, ⟨cost, c⟩))
        [.parse demand x (.ok d), .parse cost x (.ok c)]
  | invalid {log : List Exchange} : log.map Exchange.call = readingCalls x demand cost →
      (Formula.hasWord demand x = false ∨ ∃ p ∈ log, p.failure? ≠ none) →
      ReadBoth x demand cost (.error (.invalidExpression x)) log

/-- The inputs when both of them are valid. -/
def bothInputs (x : String) : Except InputFault Input → Except InputFault Input →
    Except Error (Input × Input)
  | .ok d, .ok c => .ok (d, c)
  | _, _ => .error (.invalidExpression x)

theorem ends_readInputs (x demand cost : String) :
    Ends (readInputs engine x demand cost) (readInputs engine.observed x demand cost)
      (ReadBoth x demand cost) := by
  rw [readInputs, readInputs]
  refine ((ends_read engine demand x false).bind_ok fun d =>
    (ends_read engine cost x true).bind_ok
      (Q := fun c r log => log = [] ∧ r = bothInputs x d c) fun c => ?_).mono ?_
  · rcases d with fault | d
    case error => exact .throw_of ⟨rfl, rfl⟩
    rcases c with fault | c
    case error => exact .throw_of ⟨rfl, rfl⟩
    exact .pure_of ⟨rfl, rfl⟩
  · rintro r _ ⟨d, ld, _, rfl, hd, c, lc, _, rfl, hc, rfl, rfl⟩
    rw [List.append_nil]
    cases hd with
    | missing hd =>
      have hword : Formula.hasWord demand x = false := by simpa using hd
      refine .invalid ?_ (.inl hword)
      rw [readingCalls, hword, List.map_append, hc.map_call]
      rfl
    | unreadable cause hd =>
      have hword : Formula.hasWord demand x = true := by simpa using hd
      refine .invalid ?_ (.inr ⟨_, List.mem_append_left _ List.mem_cons_self, nofun⟩)
      rw [readingCalls, hword, List.map_append, hc.map_call]
      rfl
    | read d hd =>
      have hword : Formula.hasWord demand x = true := by simpa using hd
      cases hc with
      | missing hc => cases hc
      | unreadable cause hc =>
        refine .invalid ?_ (.inr ⟨_, List.mem_append_right _ List.mem_cons_self, nofun⟩)
        rw [readingCalls, hword]
        rfl
      | read c hc => exact .valid hword

/-! ## Computing -/

/-- The model of a demand and a cost with the given marginal values. -/
def modelWith (x : String) (price cost marginalRevenue marginalCost : Expr) : Model where
  symbol := x
  price := price
  cost := cost
  revenue := .mul price (.var x)
  profit := .sub (.mul price (.var x)) cost
  marginalRevenue := marginalRevenue
  marginalCost := marginalCost

theorem surfaces_ofInputs (demand cost : Input) (x : String) :
    Surfaces (Model.ofInputs engine demand cost x)
      (Model.ofInputs engine.observed demand cost x)
      (Returns fun model log => ∃ mr mc, model = modelWith x demand.expr cost.expr mr mc ∧
        log = [.differentiate model.revenue x (.ok mr), .differentiate model.cost x (.ok mc)]) := by
  refine (Surfaces.ask_bind (Exchange.computes_differentiate _ _) fun mr =>
    Surfaces.ask_bind (Exchange.computes_differentiate _ _) fun mc => Surfaces.pure _).mono ?_
  rintro r _ ⟨mr, _, rfl, mc, _, rfl, model, hr, rfl, rfl⟩
  exact ⟨_, hr, mr, mc, rfl, rfl⟩

/-- The exchange in which a candidate gets its value. -/
def valueExchange (x : String) (c : Candidate) : Exchange :=
  .substitute (.var x) x c.1 (.ok c.2)

theorem surfaces_candidates (model : Model) (solutions : List Expr) :
    Surfaces (candidates engine model solutions) (candidates engine.observed model solutions)
      (Returns fun cs log => cs.map (·.1) = solutions ∧
        log = cs.map (valueExchange model.symbol)) := by
  induction solutions with
  | nil => exact .pure_of ⟨[], rfl, rfl, rfl⟩
  | cons root roots ih =>
    have hvalue : Surfaces
        (do return (root, ← ask (engine.substitute (.var model.symbol) model.symbol root)))
        (do return (root,
          ← ask (engine.observed.substitute (.var model.symbol) model.symbol root)))
        (Returns fun c log => c.1 = root ∧ log = [valueExchange model.symbol c]) := by
      refine (Surfaces.ask_bind (Exchange.computes_substitute _ _ _) fun v => .pure _).mono ?_
      rintro r _ ⟨v, _, rfl, c, hr, rfl, rfl⟩
      exact ⟨_, hr, rfl, rfl⟩
    simp only [candidates, List.mapM_cons] at ih ⊢
    refine (hvalue.bind_ok fun c => ih.bind_ok fun cs => .pure _).mono ?_
    rintro r _ ⟨c, _, _, rfl, ⟨rfl, rfl⟩, cs, _, _, rfl, ⟨rfl, rfl⟩, _, hr, rfl, rfl⟩
    exact ⟨_, hr, rfl, by rw [List.append_nil]; rfl⟩

/-! ## Selection -/

/-- A rule accepts a solution with such a value. -/
def SelectionRule.Accepts (rule : SelectionRule) (quantity : Scalar) : Prop :=
  rule = .first ∨ quantity.isNegative = false

/-- The calls by which a rule compares the profits of candidates. -/
def profitCalls (rule : SelectionRule) (model : Model) (cs : List Candidate) : List Call :=
  if rule = .maxProfit then
    (cs.filter fun c => !c.2.isNegative).map fun c => .substitute model.profit model.symbol c.1
  else []

/-- A rule chooses a candidate that it accepts, unless there is none. -/
inductive Chosen (rule : SelectionRule) (cs : List Candidate) : Option Candidate → Prop
  | none : (∀ c ∈ cs, ¬rule.Accepts c.2) → Chosen rule cs none
  | some {c : Candidate} : c ∈ cs → rule.Accepts c.2 → Chosen rule cs (some c)

namespace Chosen

variable {rule : SelectionRule} {cs : List Candidate} {c d : Candidate}

/-- A further candidate that is not accepted changes nothing. -/
theorem append_rejected {chosen : Option Candidate} (h : Chosen rule cs chosen)
    (hd : ¬rule.Accepts d.2) : Chosen rule (cs ++ [d]) chosen := by
  cases h with
  | none hcs => exact .none (List.forall_mem_append.2 ⟨hcs, List.forall_mem_singleton.2 hd⟩)
  | some hc haccepts => exact .some (List.mem_append_left _ hc) haccepts

/-- A further candidate may leave the choice as it is when there was one. -/
theorem append_some (h : Chosen rule cs (.some c)) : Chosen rule (cs ++ [d]) (.some c) := by
  cases h with
  | some hc haccepts => exact .some (List.mem_append_left _ hc) haccepts

end Chosen

/-- The comparison of profits goes through the candidates that are not negative, and chooses from
them and from those before them. -/
theorem surfaces_mostProfitable (model : Model) {before : List Candidate}
    {best : Option (Candidate × Float)} (hbest : Chosen .maxProfit before (best.map (·.1)))
    (cs : List Candidate) :
    Surfaces (mostProfitable engine model best cs)
      (mostProfitable engine.observed model best cs)
      (Returns fun c log => log.map Exchange.call = profitCalls .maxProfit model cs ∧
        Chosen .maxProfit (before ++ cs) c) := by
  induction cs generalizing before best with
  | nil => exact .pure_of ⟨_, rfl, rfl, by rwa [List.append_nil]⟩
  | cons c cs ih =>
    rw [mostProfitable, mostProfitable, List.append_cons]
    by_cases hnegative : c.2.isNegative = true
    · rw [if_pos hnegative, if_pos hnegative]
      have hrejected : ¬SelectionRule.maxProfit.Accepts c.2 := by
        simp [SelectionRule.Accepts, hnegative]
      refine (ih (hbest.append_rejected hrejected)).mono ?_
      rintro _ _ ⟨chosen, rfl, hlog, hchosen⟩
      exact ⟨chosen, rfl, by simpa [profitCalls, hnegative] using hlog, hchosen⟩
    · rw [if_neg hnegative, if_neg hnegative]
      have haccepts : SelectionRule.maxProfit.Accepts c.2 := .inr (Bool.eq_false_iff.2 hnegative)
      have hbetter (profit : Float) : Chosen .maxProfit (before ++ [c])
          ((if best.all (fun b => b.2 < profit) then some (c, profit) else best).map (·.1)) := by
        split
        case isTrue => exact .some (List.mem_append_right _ List.mem_cons_self) haccepts
        case isFalse hworse =>
          cases best with
          | none => exact absurd rfl hworse
          | some b => exact hbest.append_some
      refine (Surfaces.ask_bind (Exchange.computes_substitute _ _ _) fun profit =>
        ih (hbetter profit.approx)).mono ?_
      rintro _ _ ⟨profit, rest, rfl, chosen, rfl, hlog, hchosen⟩
      refine ⟨chosen, rfl, ?_, hchosen⟩
      simpa [profitCalls, hnegative, Exchange.call] using hlog

theorem surfaces_choose (rule : SelectionRule) (model : Model) (cs : List Candidate) :
    Surfaces (choose engine rule model cs) (choose engine.observed rule model cs)
      (Returns fun c log => log.map Exchange.call = profitCalls rule model cs ∧
        Chosen rule cs c) := by
  cases rule with
  | first =>
    refine .pure_of ⟨_, rfl, rfl, ?_⟩
    cases cs with
    | nil => exact .none (List.forall_mem_nil _)
    | cons c cs => exact .some List.mem_cons_self (.inl rfl)
  | smallestNonNegative =>
    refine .pure_of ⟨_, rfl, rfl, ?_⟩
    cases hfind : cs.find? fun c => !c.2.isNegative with
    | none =>
      refine .none fun c hc haccepts => ?_
      have := List.find?_eq_none.1 hfind c hc
      simp_all [SelectionRule.Accepts]
    | some c =>
      have := List.find?_some hfind
      exact .some (List.mem_of_find?_eq_some hfind) (.inr (by simpa using this))
  | maxProfit =>
    have hnone : Chosen .maxProfit [] ((none : Option (Candidate × Float)).map (·.1)) :=
      .none (List.forall_mem_nil _)
    exact surfaces_mostProfitable engine model hnone cs

/-- The solutions get their values, then the rule chooses one that it accepts. -/
theorem surfaces_select (rule : SelectionRule) (model : Model) (solutions : List Expr) :
    Surfaces (select engine rule model solutions) (select engine.observed rule model solutions)
      fun r log => ∃ cs profits, cs.map (·.1) = solutions ∧
        log = cs.map (valueExchange model.symbol) ++ profits ∧
        profits.map Exchange.call = profitCalls rule model cs ∧
        ((∃ c ∈ cs, rule.Accepts c.2 ∧ r = .ok c) ∨
          (∀ c ∈ cs, ¬rule.Accepts c.2) ∧
            r = .error (.noEquilibrium (noEquilibrium rule model solutions))) := by
  rw [select, select]
  refine ((surfaces_candidates engine model solutions).bind_ok fun cs =>
    (surfaces_choose engine rule model cs).bind_ok
      (Q := fun c r log => log = [] ∧
        r = c.elim (.error (.noEquilibrium (noEquilibrium rule model solutions))) .ok)
      fun c => ?_).mono ?_
  · cases c with
    | none => exact .throw_of ⟨rfl, rfl⟩
    | some d => exact .pure_of ⟨rfl, rfl⟩
  · rintro r _ ⟨cs, _, _, rfl, ⟨hcs, rfl⟩, c, profits, _, rfl, ⟨hprofits, hchosen⟩, rfl, hr⟩
    refine ⟨cs, profits, hcs, by rw [List.append_nil], hprofits, ?_⟩
    cases hchosen with
    | none hrejected => exact .inr ⟨hrejected, hr⟩
    | some hc haccepts => exact .inl ⟨_, hc, haccepts, hr⟩

/-! ## Evaluation -/

/-- The answers at the equilibrium quantity. -/
structure MarketAnswers where
  price : Scalar
  revenue : Scalar
  cost : Scalar
  profit : Scalar
  marginalRevenue : Scalar
  marginalCost : Scalar
  /-- The area under the demand. -/
  demandArea : Scalar
  /-- The area under the marginal cost. -/
  costArea : Scalar

namespace MarketAnswers

/-- The exchanges in which they are given. -/
def exchanges (a : MarketAnswers) (model : Model) (root : Expr) : List Exchange :=
  let x := model.symbol
  [.substitute model.price x root (.ok a.price),
    .substitute model.revenue x root (.ok a.revenue),
    .substitute model.cost x root (.ok a.cost),
    .substitute model.profit x root (.ok a.profit),
    .substitute model.marginalRevenue x root (.ok a.marginalRevenue),
    .substitute model.marginalCost x root (.ok a.marginalCost),
    .integrate model.price x .zero root (.ok a.demandArea),
    .integrate model.marginalCost x .zero root (.ok a.costArea)]

/-- What becomes of the answers without another call.  It is an equilibrium, unless the expenditure
or one of the surpluses is undefined. -/
inductive Settle (a : MarketAnswers) (quantity : Scalar) : Except Error Equilibrium → Prop
  | equilibrium {expenditure consumerSurplus producerSurplus : Scalar} :
      a.price.mul quantity = .ok expenditure →
      a.demandArea.sub expenditure = .ok consumerSurplus →
      expenditure.sub a.costArea = .ok producerSurplus →
      Settle a quantity (.ok ⟨quantity, a.price, a.profit, a.revenue, a.cost, a.marginalRevenue,
        a.marginalCost, consumerSurplus, producerSurplus⟩)
  | expenditure {why : UndefinedValue} :
      a.price.mul quantity = .error why → Settle a quantity (.error (.symbolic (.undefined why)))
  | consumerSurplus {expenditure : Scalar} {why : UndefinedValue} :
      a.price.mul quantity = .ok expenditure → a.demandArea.sub expenditure = .error why →
      Settle a quantity (.error (.symbolic (.undefined why)))
  | producerSurplus {expenditure consumerSurplus : Scalar} {why : UndefinedValue} :
      a.price.mul quantity = .ok expenditure →
      a.demandArea.sub expenditure = .ok consumerSurplus →
      expenditure.sub a.costArea = .error why →
      Settle a quantity (.error (.symbolic (.undefined why)))

theorem Settle.ne_noEquilibrium {a : MarketAnswers} {quantity : Scalar}
    {r : Except Error Equilibrium} (h : a.Settle quantity r) (why : NoEquilibrium) :
    r ≠ .error (.noEquilibrium why) := by
  cases h <;> nofun

end MarketAnswers

theorem surfaces_equilibriumAt (model : Model) (q : Candidate) :
    Surfaces (model.equilibriumAt engine q) (model.equilibriumAt engine.observed q)
      fun r log => ∃ a : MarketAnswers, log = a.exchanges model q.1 ∧ a.Settle q.2 r := by
  refine (Surfaces.ask_bind (Exchange.computes_substitute _ _ _) fun price =>
    Surfaces.ask_bind (Exchange.computes_substitute _ _ _) fun revenue =>
    Surfaces.ask_bind (Exchange.computes_substitute _ _ _) fun cost =>
    Surfaces.ask_bind (Exchange.computes_substitute _ _ _) fun profit =>
    Surfaces.ask_bind (Exchange.computes_substitute _ _ _) fun mr =>
    Surfaces.ask_bind (Exchange.computes_substitute _ _ _) fun mc =>
    Surfaces.ask_bind (Exchange.computes_integrate _ _ _ _) fun demandArea =>
    Surfaces.ask_bind (Exchange.computes_integrate _ _ _ _) fun costArea =>
    Surfaces.defined_bind fun expenditure => Surfaces.defined_bind fun cs =>
    Surfaces.defined_bind fun ps => .pure _).mono ?_
  rintro r _ ⟨price, _, rfl, revenue, _, rfl, cost, _, rfl, profit, _, rfl, mr, _, rfl, mc, _, rfl,
    demandArea, _, rfl, costArea, log, rfl, h⟩
  have hsettle : log = [] ∧
      MarketAnswers.Settle ⟨price, revenue, cost, profit, mr, mc, demandArea, costArea⟩ q.2 r := by
    rcases h with ⟨why, hexp, rfl, hlog⟩ | ⟨expenditure, hexp, h⟩
    · exact ⟨hlog, .expenditure hexp⟩
    rcases h with ⟨why, hcs, rfl, hlog⟩ | ⟨cs, hcs, h⟩
    · exact ⟨hlog, .consumerSurplus hexp hcs⟩
    rcases h with ⟨why, hps, rfl, hlog⟩ | ⟨ps, hps, _, rfl, rfl, hlog⟩
    · exact ⟨hlog, .producerSurplus hexp hcs hps⟩
    · exact ⟨hlog, .equilibrium hexp hcs hps⟩
  obtain ⟨rfl, hsettle⟩ := hsettle
  exact ⟨_, rfl, hsettle⟩

/-! ## The computation -/

/-- The course of a computation after valid inputs in which no call fails.  The engine gives the
marginal values, the solutions with their values and, if the rule needs them, their profits.  When
the rule accepts no solution, there is no equilibrium and no further call. -/
structure Completed (rule : SelectionRule) (model : Model) (cs : List Candidate)
    (profits evaluation : List Exchange) (r : Except Error Equilibrium) (log : List Exchange) :
    Prop where
  log_eq : log = [.differentiate model.revenue model.symbol (.ok model.marginalRevenue),
      .differentiate model.cost model.symbol (.ok model.marginalCost),
      .solve model.marginalRevenue model.marginalCost model.symbol (.ok (cs.map (·.1)))] ++
    cs.map (valueExchange model.symbol) ++ profits ++ evaluation
  profits_eq : profits.map Exchange.call = profitCalls rule model cs
  noEquilibrium_iff : (∃ why, r = .error (.noEquilibrium why)) ↔ ∀ c ∈ cs, ¬rule.Accepts c.2
  of_rejected : (∀ c ∈ cs, ¬rule.Accepts c.2) → evaluation = [] ∧
    r = .error (.noEquilibrium (noEquilibrium rule model (cs.map (·.1))))
  of_accepted : (∃ c ∈ cs, rule.Accepts c.2) → ∃ c ∈ cs, rule.Accepts c.2 ∧
    ∃ a : MarketAnswers, evaluation = a.exchanges model c.1 ∧ a.Settle c.2 r

theorem surfaces_equilibriumOfInputs (settings : Settings) (demand cost : Input) :
    Surfaces (equilibriumOfInputs engine settings demand cost)
      (equilibriumOfInputs engine.observed settings demand cost)
      fun r log => ∃ mr mc cs profits evaluation, Completed settings.rule
        (modelWith settings.symbol demand.expr cost.expr mr mc) cs profits evaluation r log := by
  rw [equilibriumOfInputs, equilibriumOfInputs]
  refine ((surfaces_ofInputs engine demand cost settings.symbol).bind_ok fun model =>
    Surfaces.ask_bind (Exchange.computes_solve _ _ _) fun solutions =>
      (surfaces_select engine settings.rule model solutions).bind fun c =>
        surfaces_equilibriumAt engine model c).mono ?_
  rintro r _ ⟨model, _, _, rfl, ⟨mr, mc, rfl, rfl⟩, solutions, rest, rfl, h⟩
  cases h with
  | stopped h =>
    obtain ⟨cs, profits, rfl, rfl, hprofits, ⟨c, -, -, hr⟩ | ⟨hrejected, hr⟩⟩ := h
    case inl => cases hr
    cases hr
    refine ⟨mr, mc, cs, profits, [], ?_, hprofits, ⟨fun _ => hrejected, fun _ => ⟨_, rfl⟩⟩,
      fun _ => ⟨rfl, rfl⟩, ?_⟩
    · rw [List.append_nil, List.append_assoc]
      rfl
    · rintro ⟨c, hc, haccepts⟩
      exact absurd haccepts (hrejected c hc)
  | continued h h' =>
    obtain ⟨cs, profits, rfl, rfl, hprofits, ⟨c, hc, haccepts, hr⟩ | ⟨-, hr⟩⟩ := h
    case inr => cases hr
    obtain rfl := (Except.ok.inj hr).symm
    obtain ⟨a, rfl, hsettle⟩ := h'
    refine ⟨mr, mc, cs, profits,
      a.exchanges (modelWith settings.symbol demand.expr cost.expr mr mc) c.1, ?_, hprofits,
      ?_, ?_, ?_⟩
    · simp only [List.append_assoc]
      rfl
    · exact iff_of_false (fun ⟨why, hr⟩ => hsettle.ne_noEquilibrium why hr)
        fun hrejected => hrejected c hc haccepts
    · exact fun hrejected => absurd haccepts (hrejected c hc)
    · exact fun _ => ⟨c, hc, haccepts, a, rfl, hsettle⟩

/-- The failures of any engine surface.  When the demand does not mention the quantity or a text
cannot be read, the input is invalid, and no call follows those that read.  Otherwise a call that
fails is the last one and its failure is the result, and when none fails, the computation comes to
an equilibrium, to none, or to a value that is undefined without an engine. -/
theorem engine_failures_surface (settings : Settings) (demand cost : String) (s : σ) :
    ∃ (result : Except Error Equilibrium) (reading computing : List Exchange) (s' : σ),
      (equilibriumOfShorthand engine settings demand cost).run.run s = (result, s') ∧
      ((equilibriumOfShorthand engine.observed settings demand cost).run.run []).run s =
        ((result, reading ++ computing), s') ∧
      reading.map Exchange.call = readingCalls settings.symbol (Formula.normalize demand)
        (Formula.normalize cost) ∧
      ((Formula.hasWord (Formula.normalize demand) settings.symbol = false ∨
          ∃ p ∈ reading, p.failure? ≠ none) →
        result = .error (.invalidExpression settings.symbol) ∧ computing = []) ∧
      (Formula.hasWord (Formula.normalize demand) settings.symbol = true →
          (∀ p ∈ reading, p.failure? = none) →
        (∀ p ∈ computing, p.reads = false) ∧
        (∀ n p cause, computing[n]? = some p → p.failure? = some cause →
          n + 1 = computing.length ∧ result = .error (.symbolic cause)) ∧
        ((∀ p ∈ computing, p.failure? = none) → ∃ d c mr mc cs profits evaluation,
          reading = [.parse (Formula.normalize demand) settings.symbol (.ok d),
            .parse (Formula.normalize cost) settings.symbol (.ok c)] ∧
          Completed settings.rule (modelWith settings.symbol d c mr mc) cs profits evaluation
            result computing)) := by
  have hends := (ends_readInputs engine settings.symbol (Formula.normalize demand)
    (Formula.normalize cost)).bind fun inputs =>
      surfaces_equilibriumOfInputs engine settings inputs.1 inputs.2
  obtain ⟨result, log, s', hrun, h⟩ := hends s
  have hplain : (equilibriumOfShorthand engine settings demand cost).run.run s = (result, s') :=
    hrun.plain
  have hobserved :
      ((equilibriumOfShorthand engine.observed settings demand cost).run.run []).run s =
        ((result, log), s') := hrun.observed []
  cases h with
  | stopped h =>
    cases h with
    | invalid hcalls hinvalid =>
      refine ⟨_, log, [], s', hplain, ?_, hcalls, fun _ => ⟨rfl, rfl⟩, fun hword hread => ?_⟩
      · rw [List.append_nil]
        exact hobserved
      · rcases hinvalid with hmissing | ⟨p, hp, hfails⟩
        · rw [hmissing] at hword
          cases hword
        · exact absurd (hread p hp) hfails
  | @continued inputs _ reading computing h h' =>
    cases h with
    | @valid d c hword =>
      refine ⟨result, _, computing, s', hplain, hobserved, ?_, ?_, fun _ _ => ⟨h'.reads_eq,
        fun n p cause => h'.of_getElem?, fun hcomputing => ?_⟩⟩
      · rw [readingCalls, hword]
        rfl
      · rintro (hmissing | ⟨p, hp, hfails⟩)
        · rw [hmissing] at hword
          cases hword
        · rcases List.mem_pair.1 hp with rfl | rfl <;> exact absurd rfl hfails
      · obtain ⟨mr, mc, cs, profits, evaluation, h'⟩ := h'.of_failure? hcomputing
        exact ⟨d, c, mr, mc, cs, profits, evaluation, rfl, h'⟩

end MarketAlgebra.Market
