import Mathlib.Analysis.Calculus.Deriv.Polynomial
import MarketAlgebra.Proofs.Market.FirstOrder
import MarketAlgebra.Proofs.Market.Linear

/-!
# The accounts of an equilibrium

Revenue, profit and the two surpluses of an equilibrium are computed on separate paths, by
substitution, products of values and integrals.  Their exact values fit together all the same
(`equilibrium_accounts`).  The identities of the surpluses rest on integration being exact, which is
so for polynomial demand, cost and marginal cost whose degrees are words; there, integrating the
simplified derivative of the cost gives back the variable cost.
-/

namespace MarketAlgebra.Market

open Polynomial

variable {s : String → ℝ} {x : String} {root : Expr} {q : ℝ}

/-! ## Values -/

/-- The exact part of a value keeps the value of the expression. -/
theorem hasValue_exact {e : Expr} {v : Scalar} {w : ℝ} (h : Scalar.ofExpr e = .ok v)
    (he : e.HasValue s w) : v.exact.HasValue s w := by
  rw [(ofExpr_eq_ok_iff.1 h).1]
  exact (keeps_simplify s e).hasValue he

theorem hasValue_mul {u v t : Scalar} {a b : ℝ} (h : u.mul v = .ok t) (hu : u.exact.HasValue s a)
    (hv : v.exact.HasValue s b) : t.exact.HasValue s (a * b) :=
  hasValue_exact h ⟨⟨hu.1, hv.1⟩, by rw [Expr.real, hu.2, hv.2]⟩

theorem hasValue_sub {u v t : Scalar} {a b : ℝ} (h : u.sub v = .ok t) (hu : u.exact.HasValue s a)
    (hv : v.exact.HasValue s b) : t.exact.HasValue s (a - b) :=
  hasValue_exact h ⟨⟨hu.1, hv.1⟩, by rw [Expr.real, hu.2, hv.2]⟩

/-- Where the variable has the value of the root, the root can be put in its place. -/
theorem hasValue_at_root {e : Expr} {v : Scalar} {w : ℝ} (hroot : root.HasValue s q)
    (hq : s x = q) (h : Scalar.ofExpr (e.substitute x root) = .ok v) (he : e.HasValue s w) :
    v.exact.HasValue s w := by
  refine hasValue_exact h ((Expr.hasValue_substitute_iff hroot e).2 ?_)
  rwa [← hq, Function.update_eq_self]

/-! ## Surpluses -/

/-- An integral from zero to the root. -/
theorem hasValue_area {e v : Expr} {area : Scalar} {p : Poly} {approx : Float}
    (hp : Poly.ofExpr? x e = some p) (hi : p.isIntegrable = true) (hroot : root.HasValue s q)
    (heval : root.evaluate = .ok approx) (hzero : q = 0 ∨ (approx == 0) = false)
    (h : definiteIntegral x e .zero root = .ok v) (harea : Scalar.ofExpr v = .ok area) :
    area.exact.HasValue s (p.integral.real.eval q) := by
  have hlower : Expr.zero.HasValue s 0 := ⟨trivial, Expr.real_zero⟩
  have hsame : ∀ fa fb, Expr.zero.evaluate = .ok fa → root.evaluate = .ok fb →
      (fa == fb) = true → (0 : ℝ) = q := by
    intro fa fb ha hb hab
    obtain rfl : fa = Binary64.ofRat 0 := (Except.ok.inj ha).symm
    obtain rfl : approx = fb := Except.ok.inj (heval.symm.trans hb)
    rw [Binary64.ofRat_zero_beq] at hab
    rcases hzero with hq | hne
    · exact hq.symm
    · rw [hne] at hab
      cases hab
  have hvalue := hasValue_definiteIntegral hp hlower hroot hsame h
  rw [Poly.eval_zero_real_integral hi, sub_zero] at hvalue
  exact hasValue_exact harea hvalue

/-- A polynomial that is read from an expression has an integral, as long as its degree leaves room
for one more. -/
theorem isIntegrable_of_ofExpr? {e : Expr} {p : Poly} (hp : Poly.ofExpr? x e = some p)
    (hlt : e.degreeBound + 1 < Poly.wordSize) : p.isIntegrable = true :=
  Poly.isIntegrable_iff.2 ((Poly.ofExpr?_eq_some_iff.1 hp).size_le.trans_lt hlt)

/-- Integrating the simplified derivative gives back the difference of the values. -/
theorem eval_integral_of_derivative {e : Expr} {p p' : Poly} (hp : Poly.ofExpr? x e = some p)
    (hlt : e.degreeBound < Poly.wordSize)
    (hp' : Poly.ofExpr? x (simplify (derivative x e)) = some p')
    (hlt' : (simplify (derivative x e)).degreeBound + 1 < Poly.wordSize) (q : ℝ) :
    p'.integral.real.eval q = p.real.eval q - p.real.eval 0 := by
  have hi := isIntegrable_of_ofExpr? hp' hlt'
  have hderiv : Polynomial.derivative (p'.integral.real - p.real) = 0 := by
    rw [derivative_sub, Poly.derivative_real_integral hi,
      real_ofExpr?_derivative hp hlt hp' (Nat.lt_of_succ_lt hlt'), sub_self]
  have hconst := eq_C_of_natDegree_eq_zero (Polynomial.derivative_eq_zero.1 hderiv)
  have heval : ∀ a : ℝ, p'.integral.real.eval a - p.real.eval a =
      (p'.integral.real - p.real).coeff 0 := fun a => by
    rw [← eval_sub, hconst, eval_C, coeff_C_zero]
  have h0 := heval 0
  rw [Poly.eval_zero_real_integral hi] at h0
  linarith [heval q]

/-- The accounts of an equilibrium of any demand and cost, at its exact quantity `q`.  If both are
defined there, the exact price is that of the demand, revenue is price times quantity, and profit is
revenue less cost.  If moreover demand, cost and marginal cost are polynomials whose degrees are
words, and the approximation of `q` is zero only when `q` is, then the producer surplus is the
profit plus the fixed cost, and the consumer surplus is the area under the demand less the
revenue. -/
theorem equilibrium_accounts {settings : Settings} {demand cost : Input} {r : Equilibrium}
    (h : (equilibriumOfInputs Engine.exact settings demand cost).run.run = .ok r) :
    ∃ q : ℝ, (∀ s, r.quantity.exact.HasValue s q) ∧ ∀ s, s settings.symbol = q →
      demand.expr.Defined s → cost.expr.Defined s → ∃ p c : ℝ,
        r.price.exact.HasValue s p ∧ r.revenue.exact.HasValue s (p * q) ∧
        r.cost.exact.HasValue s c ∧ r.profit.exact.HasValue s (p * q - c) ∧
        demand.expr.HasValue s p ∧ cost.expr.HasValue s c ∧
        ∀ model, (Model.ofInputs Engine.exact demand cost settings.symbol).run.run = .ok model →
          (Poly.ofExpr? settings.symbol demand.expr).isSome →
          (Poly.ofExpr? settings.symbol cost.expr).isSome →
          (Poly.ofExpr? settings.symbol model.marginalCost).isSome →
          (q = 0 ∨ (r.quantity.approx == 0) = false) →
          (cost.expr.degreeBound < Poly.wordSize →
            model.marginalCost.degreeBound + 1 < Poly.wordSize →
            ∃ fixedCost, cost.expr.HasValue (Function.update s settings.symbol 0) fixedCost ∧
              r.producerSurplus.exact.HasValue s (p * q - c + fixedCost)) ∧
          (demand.expr.degreeBound + 1 < Poly.wordSize → ∃ A : ℝ → ℝ, A 0 = 0 ∧
            (∀ t, ∃ price, demand.expr.HasValue (Function.update s settings.symbol t) price ∧
              HasDerivAt A price t) ∧
            r.consumerSurplus.exact.HasValue s (A q - p * q)) := by
  obtain ⟨solutions, root, hmem, hsolve, hr⟩ := exists_evaluated h
  have hwritten := written_of_mem_solve hsolve hmem
  have hquantity : ∀ s, r.quantity.exact.HasValue s root.value := fun s =>
    hasValue_exact hr.quantity (hwritten.hasValue s)
  refine ⟨root.value, hquantity, fun s hs hdemand hcost => ?_⟩
  have hroot := hwritten.hasValue s
  have hx : (Expr.var settings.symbol).HasValue s root.value := ⟨trivial, hs⟩
  have hp := hdemand.hasValue
  have hc := hcost.hasValue
  have hrevenue : (Expr.mul demand.expr (.var settings.symbol)).HasValue s
      (demand.expr.real s * root.value) := ⟨⟨hp.1, hx.1⟩, by rw [Expr.real, hx.2]⟩
  have hprofit : (Expr.sub (.mul demand.expr (.var settings.symbol)) cost.expr).HasValue s
      (demand.expr.real s * root.value - cost.expr.real s) :=
    ⟨⟨hrevenue.1, hc.1⟩, by rw [Expr.real, hrevenue.2]⟩
  have vprice := hasValue_at_root hroot hs hr.price hp
  have vrevenue := hasValue_at_root hroot hs hr.revenue hrevenue
  have vcost := hasValue_at_root hroot hs hr.cost hc
  have vprofit := hasValue_at_root hroot hs hr.profit hprofit
  refine ⟨demand.expr.real s, cost.expr.real s, vprice, vrevenue, vcost, vprofit, hp, hc,
    fun model hmodel hpd hpc hpm hzero => ?_⟩
  obtain rfl := Except.ok.inj ((run_ofInputs demand cost settings.symbol).symm.trans hmodel)
  obtain ⟨pd, hpd⟩ := Option.isSome_iff_exists.1 hpd
  obtain ⟨pc, hpc⟩ := Option.isSome_iff_exists.1 hpc
  obtain ⟨pm, hpm⟩ := Option.isSome_iff_exists.1 hpm
  have heval : root.evaluate = .ok r.quantity.approx := by
    rw [← hwritten.simplify]
    exact (ofExpr_eq_ok_iff.1 hr.quantity).2
  obtain ⟨expenditure, demandArea, costArea, dv, cv, hexp, hdv, hda, hcv, hca, hcs, hps⟩ :=
    hr.surplus
  have vexp := hasValue_mul hexp vprice (hquantity s)
  constructor
  · intro hltc hltm
    have vcostArea := hasValue_area hpm (isIntegrable_of_ofExpr? hpm hltm) hroot heval hzero hcv hca
    have vproducer := hasValue_sub hps vexp vcostArea
    refine ⟨pc.real.eval 0, Poly.hasValue_update_of_ofExpr? hpc hltc s 0, ?_⟩
    have hvariable := eval_integral_of_derivative hpc hltc hpm hltm root.value
    have hcostAt := Poly.hasValue_of_ofExpr? hpc hltc s
    rw [hs] at hcostAt
    rw [hvariable, ← hcostAt.2] at vproducer
    convert vproducer using 1
    ring
  · intro hltd
    have hi := isIntegrable_of_ofExpr? hpd hltd
    have vdemand := hasValue_area hpd hi hroot heval hzero hdv hda
    refine ⟨fun t => pd.integral.real.eval t, Poly.eval_zero_real_integral hi, fun t => ?_,
      hasValue_sub hcs vdemand vexp⟩
    refine ⟨pd.real.eval t,
      Poly.hasValue_update_of_ofExpr? hpd (Nat.lt_of_succ_lt hltd) s t, ?_⟩
    have hderiv := pd.integral.real.hasDerivAt t
    rwa [Poly.derivative_real_integral hi] at hderiv

/-- At the demand `10 - Q` and the cost `3 + 2Q` the quantity is 4 and the price is 6. -/
theorem equilibrium_accounts_of_linear :
    ∃ r, (equilibriumOfInputs Engine.exact {} ⟨"10 - 1*Q", linearDemand "Q" 10 1⟩
        ⟨"3 + 2*Q", linearCost "Q" 3 2⟩).run.run = .ok r ∧
      ∀ s : String → ℝ, s "Q" = 4 → r.revenue.exact.HasValue s (6 * 4) ∧
        r.profit.exact.HasValue s (6 * 4 - 11) ∧
        r.producerSurplus.exact.HasValue s (6 * 4 - 11 + 3) ∧
        ∃ A : ℝ → ℝ, A 0 = 0 ∧ r.consumerSurplus.exact.HasValue s (A 4 - 6 * 4) := by
  have hmoderate : Moderate 10 1 3 2 := by
    have hnat := moderate_natCast (a := 10) (b := 1) (c := 3) (d := 2) (by norm_num) (by norm_num)
      (by norm_num) le_rfl (by norm_num)
    exact_mod_cast hnat
  have hrun := run_linear hmoderate {} "10 - 1*Q" "3 + 2*Q"
  obtain ⟨q, hq, haccounts⟩ := equilibrium_accounts hrun
  obtain rfl : 4 = q := by
    have hvalue := (hq fun _ => 0).2
    have hquantity : linearQuantity 10 1 2 = 4 := by norm_num [linearQuantity]
    simpa [linearEquilibrium, rationalScalar, hquantity, Expr.real] using hvalue
  refine ⟨_, hrun, fun s hs => ?_⟩
  obtain ⟨p, c, -, hrevenue, -, hprofit, hp, hc, hsurplus⟩ := haccounts s hs
    (by simp [linearDemand, Expr.Defined]) (by simp [linearCost, Expr.Defined])
  obtain rfl : 6 = p := by
    have hvalue := hp.2
    norm_num [linearDemand, Expr.real, hs] at hvalue
    exact hvalue
  obtain rfl : 11 = c := by
    have hvalue := hc.2
    norm_num [linearCost, Expr.real, hs] at hvalue
    exact hvalue
  have hmarginal : (Poly.ofExpr? "Q" (simplify (derivative "Q" (linearCost "Q" 3 2)))).isSome := by
    rw [marginalCost_linear]
    rfl
  have hltm : (simplify (derivative "Q" (linearCost "Q" 3 2))).degreeBound + 1 <
      Poly.wordSize := by
    rw [marginalCost_linear]
    decide
  obtain ⟨hproducerSurplus, hconsumerSurplus⟩ := hsurplus _ (run_ofInputs _ _ _)
    (by with_unfolding_all rfl) (by with_unfolding_all rfl) hmarginal
    (.inr (by with_unfolding_all rfl))
  obtain ⟨fixedCost, hfixed, hproducer⟩ := hproducerSurplus (by decide) hltm
  obtain ⟨A, hA, -, hconsumer⟩ := hconsumerSurplus (by decide)
  obtain rfl : 3 = fixedCost := by
    have hvalue := hfixed.2
    norm_num [linearCost, Expr.real] at hvalue
    exact hvalue
  exact ⟨hrevenue, hprofit, hproducer, A, hA, hconsumer⟩

/-! ## A cost that wraps around -/

/-- The equilibrium at the quantity 1, with a producer surplus of 1. -/
def wrappedEquilibrium : Equilibrium :=
  rationalEquilibrium 1 (2 ^ 64 + 2) 1 (2 ^ 64 + 1) (2 ^ 64 + 1) (2 ^ 64 + 5 / 2) (2 ^ 64 + 1)

theorem solve_wrappedModel :
    solve wrappedModel.marginalRevenue wrappedModel.marginalCost "Q" = .ok [.const 1] := by
  let p : Poly := .const 2 - .const 2 * .x
  have hnonzero : ¬p.isZero = true := by with_unfolding_all decide
  have hroots : Roots.realRoots p = [.const 1] := by
    have hsize : ¬p.squareFreePart.size ≤ 1 := by with_unfolding_all decide
    have hrational : Roots.rationalRoots p.squareFreePart = [1] := by with_unfolding_all decide
    have hremaining : Roots.remainingRoots ([1].foldl Roots.divideOut p.squareFreePart) = [] := by
      with_unfolding_all decide
    simp only [Roots.realRoots, if_neg hsize, hrational, hremaining]
    rw [List.append_nil, List.map_singleton, List.mergeSort_singleton]
    rfl
  exact solve_eq_of_rational [1] ofExpr?_wrappedCondition hnonzero hroots
    (by simp [RationalFunction.ofPoly]) (by simpa using abs_le_of_le_ten_pow (v := 1) (by norm_num))
    (by simp)

theorem evaluated_wrappedModel : Evaluated wrappedModel (.const 1) wrappedEquilibrium := by
  have hone : |(1 : Rat)| ≤ 2 ^ 1023 := abs_le_of_le_ten_pow (by norm_num)
  have hnonzero : (1 : Rat) = 0 ∨ (2 ^ 1022)⁻¹ ≤ |(1 : Rat)| :=
    .inr (by simpa using inv_le_one_of_one_le₀ (one_le_pow₀ one_le_two))
  have hdemandArea : definiteIntegral "Q" wrappedDemand .zero (.const 1) =
      .ok (.const (2 ^ 64 + 5 / 2)) := by
    have harea : (Poly.const 18446744073709551619 - Poly.x).integral.eval 1 = 2 ^ 64 + 5 / 2 := by
      with_unfolding_all rfl
    rw [← harea]
    exact definiteIntegral_const (by with_unfolding_all rfl) (by with_unfolding_all rfl)
      (by with_unfolding_all decide) hone hnonzero
      (abs_le_of_le_ten_pow (by rw [harea]; norm_num [abs_le]))
  have hcostArea : definiteIntegral "Q" wrappedMarginalCost .zero (.const 1) =
      .ok (.const (2 ^ 64 + 1)) := by
    have harea : (Poly.const 18446744073709551617).integral.eval 1 = 2 ^ 64 + 1 := by
      with_unfolding_all rfl
    rw [← harea]
    exact definiteIntegral_const (by decide +kernel) (by decide +kernel) (by decide +kernel) hone
      hnonzero (abs_le_of_le_ten_pow (by rw [harea]; norm_num [abs_le]))
  refine evaluated_rational (by decide +kernel) (by decide +kernel) ?_ ?_ hdemandArea ?_ ?_
  · change (wrappedModel.marginalRevenue.substitute "Q" (.const 1)).rational? = _
    rw [marginalRevenue_wrappedModel]
    with_unfolding_all rfl
  · change (wrappedModel.marginalCost.substitute "Q" (.const 1)).rational? = _
    rw [marginalCost_wrappedModel]
    decide +kernel
  · change definiteIntegral "Q" wrappedModel.marginalCost .zero (.const 1) = _
    rw [marginalCost_wrappedModel, hcostArea]
  · refine fun v hv => abs_le_of_le_ten_pow ?_
    fin_cases hv <;> norm_num [abs_le]

theorem run_wrappedModel (text text' : String) :
    (equilibriumOfInputs Engine.exact {} ⟨text, wrappedDemand⟩ ⟨text', wrappedCost⟩).run.run =
      .ok wrappedEquilibrium := by
  have hvalues : ∀ c ∈ [(Expr.const 1, rationalScalar 1)], Scalar.ofExpr c.1 = .ok c.2 := by
    rw [List.forall_mem_singleton]
    exact ofExpr_const (abs_le_of_le_ten_pow (by norm_num))
  exact run_equilibriumOfInputs_eq_ok_iff.2
    ⟨[(.const 1, rationalScalar 1)], _, solve_wrappedModel, hvalues, rfl, evaluated_wrappedModel⟩

theorem readIn_wrappedDemand :
    Formula.readIn "18446744073709551619 - Q" "Q" = .ok wrappedDemand := by
  refine Formula.readIn_eq_ok_iff.2 ⟨Formula.parse?_eq_some_iff.2 ⟨_, by cbv, ?_⟩, by decide⟩
  exact .minus (.ofProduct (.ofSigned (Formula.Derives.number 18446744073709551619).primary_signed))
    (.ofSigned (Formula.Derives.name "Q").primary_signed)

/-- The text of the cost. -/
def wrappedCostText : String :=
  "(-(-(-(-(-(-(-(-Q)^512)^512)^512)^512)^512)^512)^256)^4*Q"

/-- Powers over one another, each of the negation of the one below, which stands in parentheses. -/
theorem derives_nestedPower {ts : List Formula.Token} {e : Expr} (ns : List ℕ)
    (h : Formula.Derives .signed ts e) : Formula.Derives .signed
      (ns.foldl (fun ts n => (.lparen :: (.minus :: ts) ++ [.rparen]) ++ [.power, .number n]) ts)
      (ns.foldl (fun e n => .pow (.neg e) (.const n)) e) := by
  induction ns generalizing ts e with
  | nil => exact h
  | cons n ns ih =>
    have hneg := Formula.Derives.enclose (.ofProduct (.ofSigned (.negative h)))
    exact ih (hneg.raise_number n)

theorem readIn_wrappedCost : Formula.readIn wrappedCostText "Q" = .ok wrappedCost := by
  have hname := (Formula.Derives.name "Q").primary_signed
  have hcost : Formula.Derives .product _ wrappedCost :=
    .times (.ofSigned (derives_nestedPower (wrappedExponents.take 8) hname)) hname
  exact Formula.readIn_eq_ok_iff.2
    ⟨Formula.parse?_eq_some_iff.2 ⟨_, by cbv, .ofProduct hcost⟩, by decide⟩

theorem run_readInputs_wrapped :
    (readInputs Engine.exact "Q" "18446744073709551619 - Q" wrappedCostText).run.run =
      .ok (⟨"18446744073709551619 - Q", wrappedDemand⟩, ⟨wrappedCostText, wrappedCost⟩) :=
  run_readInputs_eq_ok_iff.2 ⟨run_read_eq_ok_iff.2 ⟨.inr (by cbv), readIn_wrappedDemand, rfl⟩,
    run_read_eq_ok_iff.2 ⟨.inl rfl, readIn_wrappedCost, rfl⟩⟩

/-- The area under the marginal cost is the one of a constant, so the producer surplus is not the
profit plus the fixed cost. -/
theorem wrapped_cost_breaks_the_accounts : ∃ demand cost r,
    (readInputs Engine.exact "Q" "18446744073709551619 - Q" wrappedCostText).run.run =
      .ok (demand, cost) ∧
    (equilibriumOfInputs Engine.exact {} demand cost).run.run = .ok r ∧
    (Poly.ofExpr? "Q" demand.expr).isSome ∧ (Poly.ofExpr? "Q" cost.expr).isSome ∧
    (∀ model, (Model.ofInputs Engine.exact demand cost "Q").run.run = .ok model →
      (Poly.ofExpr? "Q" model.marginalCost).isSome) ∧
    (r.quantity.approx == 0) = false ∧ (∀ s, s "Q" = 0 → cost.expr.HasValue s 0) ∧
    r.profit.exact = .const (2 ^ 64 + 1) ∧ r.producerSurplus.exact = .const 1 := by
  have hexponents : Poly.EvenExponents (wrappedExponents.take 8) := by decide
  have hpower := Poly.denotes_nestedPower (x := "Q") hexponents
  refine ⟨_, _, _, run_readInputs_wrapped, run_wrappedModel _ _, by decide,
    by with_unfolding_all rfl, fun model hmodel => ?_, by with_unfolding_all rfl,
    fun s hs => ?_, by with_unfolding_all rfl, by with_unfolding_all rfl⟩
  · obtain rfl := Except.ok.inj ((run_ofInputs _ _ _).symm.trans hmodel)
    change (Poly.ofExpr? "Q" wrappedModel.marginalCost).isSome = true
    rw [marginalCost_wrappedModel]
    with_unfolding_all rfl
  · have hvalue := (Poly.Denotes.mul hpower .var).hasValue s
    rw [hs, Polynomial.map_mul, eval_mul, Polynomial.map_X, eval_X, mul_zero] at hvalue
    exact hvalue

end MarketAlgebra.Market
