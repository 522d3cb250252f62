import MarketAlgebra.Proofs.Market.Computation
import MarketAlgebra.Proofs.RationalFunction.Field
import MarketAlgebra.Proofs.RationalFunction.Simplification

/-!
# The first-order condition

The equation `MR = MC` is solved by way of the rational function of the simplified difference of
both sides.  This function comes from two symbolic derivatives and a simplification of each of them
and of their difference.  While the degrees are words, it is the derivative of the profit, as an
identity in the field of rational functions (`first_order_condition`).

Both have the same values at almost all points: the difference because differentiation and
simplification are right wherever demand and cost are regular, and that is almost everywhere, and
the derivative of the profit because its values determine it.  That the difference is read as a
rational function at all is a matter of its form, which the simplifier keeps.
-/

namespace MarketAlgebra.Market

open Filter MarketAlgebra.Expr MarketAlgebra.RationalFunction Polynomial

/-- The left side of the equation that is solved, when its right side is zero. -/
def Model.marginalProfit (model : Model) : Expr :=
  simplify (.sub model.marginalRevenue model.marginalCost)

/-- The derivative of the quotient `n / d`, in the field of rational functions. -/
noncomputable def quotientDerivative (n d : ℚ[X]) : RatFunc ℚ :=
  algebraMap ℚ[X] (RatFunc ℚ) (Polynomial.derivative n * d - n * Polynomial.derivative d) /
    algebraMap ℚ[X] (RatFunc ℚ) (d ^ 2)

section

variable {demand cost : Expr} {x : String} {f g h : RationalFunction}

/-- Only integers are exponents in the difference of the marginal values. -/
theorem integerPowers_marginalProfit (hdemand : Expands x demand f) (hcost : Expands x cost g) :
    (modelOf demand cost x).marginalProfit.IntegerPowers x := by
  have hrevenue : (Expr.mul demand (.var x)).ComputedPowers x := ⟨hdemand.computedPowers, rfl⟩
  have hmr := integerPowers_simplify (integerPowers_derivative hrevenue)
  have hmc := integerPowers_simplify (integerPowers_derivative hcost.computedPowers)
  exact integerPowers_simplify ⟨hmr, hmc⟩

/-- The difference of the marginal values has the values of the derivative of the profit. -/
theorem eventually_hasValue_marginalProfit (hdemand : Expands x demand f)
    (hcost : Expands x cost g) (hlt : (modelOf demand cost x).profit.degreeBound < Poly.wordSize)
    (hprofit : Expands x (modelOf demand cost x).profit h) (s : String → ℝ) :
    ∀ᶠ t in cofinite, (modelOf demand cost x).marginalProfit.HasValue
      (Function.update s x t) (h.slope t) := by
  have hrevenue_lt : (Expr.mul demand (.var x)).degreeBound < Poly.wordSize :=
    (Nat.le_add_right _ _).trans_lt hlt
  have hcost_lt : cost.degreeBound < Poly.wordSize := (Nat.le_add_left _ _).trans_lt hlt
  have hrevenue := hdemand.mul_of_lt .var hrevenue_lt
  filter_upwards [hrevenue.eventually_derivesAt hrevenue_lt s,
    hcost.eventually_derivesAt hcost_lt s, hprofit.eventually_eq hlt s] with t hr hc heq
  have hmr := (keeps_simplify _ _).hasValue hr.hasValue
  have hmc := (keeps_simplify _ _).hasValue hc.hasValue
  refine (keeps_simplify _ _).hasValue ⟨⟨hmr.1, hmc.1⟩, ?_⟩
  rw [← heq _ (hr.sub hc), ← hmr.2, ← hmc.2]
  rfl

/-- A function with the values of the derivative of another one is its derivative in the field. -/
theorem toRatFunc_eq_of_slope (hf : f.denom.toPolynomial ≠ 0) (hg : g.denom.toPolynomial ≠ 0)
    (heq : ∀ᶠ t in cofinite, f.value t = g.slope t) :
    f.toRatFunc = quotientDerivative g.numer.toPolynomial g.denom.toPolynomial := by
  have hsquare := pow_ne_zero 2 hg
  rw [toRatFunc, quotientDerivative, div_eq_div_iff (RatFunc.algebraMap_ne_zero hf)
    (RatFunc.algebraMap_ne_zero hsquare), ← map_mul, ← map_mul]
  refine congrArg _ (mul_eq_of_value_eq hf hsquare (heq.mono fun t ht => ?_))
  rw [ht, RationalFunction.slope]
  simp only [Polynomial.map_sub, Polynomial.map_mul, Polynomial.map_pow, ← derivative_map,
    eval_sub, eval_mul, eval_pow, Poly.real]

end

/-- For demand and cost that are rational functions, the first-order condition is read as the
derivative of the profit, in lowest terms, unless it has an exponent beyond the limit or a degree
that is not a word. -/
theorem first_order_condition {demand cost : Input} {x : String} {model : Model}
    (hmodel : (Model.ofInputs Engine.exact demand cost x).run.run = .ok model)
    (hdemand : (ofExpr? x demand.expr).isSome = true) (hcost : (ofExpr? x cost.expr).isSome = true)
    (hlimit : model.marginalProfit.ExponentsWithin expansionLimit)
    (hprofit : model.profit.degreeBound < Poly.wordSize)
    (hmarginal : model.marginalProfit.degreeBound < Poly.wordSize) :
    ∃ f g, ofExpr? x model.marginalProfit = some f ∧ Canonical x model.marginalProfit f ∧
      ofExpr? x (.sub (.mul demand.expr (.var x)) cost.expr) = some g ∧
      Canonical x (.sub (.mul demand.expr (.var x)) cost.expr) g ∧
      f.toRatFunc = quotientDerivative g.numer.toPolynomial g.denom.toPolynomial := by
  obtain rfl := Except.ok.inj ((run_ofInputs demand cost x).symm.trans hmodel)
  obtain ⟨p, hp⟩ := Option.isSome_iff_exists.1 hdemand
  obtain ⟨c, hc⟩ := Option.isSome_iff_exists.1 hcost
  have hdemand := ofExpr?_eq_some_iff.1 hp
  have hcost := ofExpr?_eq_some_iff.1 hc
  have hrevenue := hdemand.mul_of_lt .var ((Nat.le_add_right _ _).trans_lt hprofit)
  have hg := hrevenue.sub_of_lt hcost hprofit
  have hvalue := eventually_hasValue_marginalProfit hdemand hcost hprofit hg fun _ => 0
  obtain ⟨f, hf⟩ := exists_expands (integerPowers_marginalProfit hdemand hcost) hlimit hmarginal
    (hvalue.mono fun t ht => ht.1)
  refine ⟨f, _, ofExpr?_eq_some_iff.2 hf, hf.canonical hmarginal, ofExpr?_eq_some_iff.2 hg,
    hg.canonical hprofit, ?_⟩
  refine toRatFunc_eq_of_slope hf.lowest.denom_ne_zero hg.lowest.denom_ne_zero ?_
  filter_upwards [hf.eventually_hasValue hmarginal fun _ => 0, hvalue] with t ht ht'
  exact ht.unique ht'

/-! ## A demand with a pole -/

/-- The demand `10 / (Q - 1)`. -/
def poleDemand : Expr := .div (.const 10) (.sub (.var "Q") (.const 1))

/-- The cost `Q ^ 2`. -/
def poleCost : Expr := .pow (.var "Q") (.const 2)

/-- The marginal revenue, with the summands of the product rule apart. -/
def poleMarginalRevenue : Expr :=
  .add
    (.mul (.const (-10))
      (.div (.var "Q") (.pow (.add (.var "Q") (.const (-1))) (.const 2))))
    (.mul (.const 10) (.div (.const 1) (.add (.var "Q") (.const (-1)))))

theorem marginalProfit_pole : (modelOf poleDemand poleCost "Q").marginalProfit =
    .add
      (.add (.mul (.const (-2)) (.var "Q"))
        (.mul (.const (-10))
          (.div (.var "Q") (.pow (.add (.var "Q") (.const (-1))) (.const 2)))))
      (.mul (.const 10) (.div (.const 1) (.add (.var "Q") (.const (-1))))) := by
  have hmr : simplify (derivative "Q" (.mul poleDemand (.var "Q"))) = poleMarginalRevenue := by
    have hderivative : derivative "Q" (.mul poleDemand (.var "Q")) = poleMarginalRevenue := by
      simp only [poleDemand, derivative, mentions, Derivative.productRule, Derivative.quotientRule,
        simplifyOnce_eq_step]
      cbv
    rw [hderivative]
    exact simplify_eq_of_step (by cbv) (by cbv)
  have hmc : simplify (derivative "Q" poleCost) = .mul (.const 2) (.var "Q") := by
    have hderivative : derivative "Q" poleCost = .mul (.const 2) (.var "Q") := by
      simp only [poleCost, derivative, Derivative.powerRule, simplifyOnce_eq_step]
      cbv
    rw [hderivative]
    exact simplify_eq_of_step (by cbv) (by cbv)
  rw [Model.marginalProfit, modelOf, hmr, hmc]
  exact simplify_eq_of_step (by cbv) (by cbv)

/-- A demand with a pole.  Neither the price nor the profit has a value at `Q = 1`. -/
theorem first_order_condition_of_pole :
    let demand : Input := ⟨"10/(Q - 1)", poleDemand⟩
    let cost : Input := ⟨"Q^2", poleCost⟩
    let model := modelOf poleDemand poleCost "Q"
    (Model.ofInputs Engine.exact demand cost "Q").run.run = .ok model ∧
      (ofExpr? "Q" poleDemand).isSome = true ∧ (ofExpr? "Q" poleCost).isSome = true ∧
      model.marginalProfit.ExponentsWithin expansionLimit ∧
      model.profit.degreeBound < Poly.wordSize ∧
      model.marginalProfit.degreeBound < Poly.wordSize ∧
      ∃ f g, ofExpr? "Q" model.marginalProfit = some f ∧ Canonical "Q" model.marginalProfit f ∧
        ofExpr? "Q" (.sub (.mul poleDemand (.var "Q")) poleCost) = some g ∧
        Canonical "Q" (.sub (.mul poleDemand (.var "Q")) poleCost) g ∧
        f.toRatFunc = quotientDerivative g.numer.toPolynomial g.denom.toPolynomial := by
  intro demand cost model
  have hdemand : (ofExpr? "Q" poleDemand).isSome = true := by cbv
  have hcost : (ofExpr? "Q" poleCost).isSome = true := by cbv
  have hlimit : model.marginalProfit.ExponentsWithin expansionLimit := by
    rw [marginalProfit_pole]
    norm_num [ExponentsWithin, expansionLimit]
  have hprofit : model.profit.degreeBound < Poly.wordSize := by decide
  have hmarginal : model.marginalProfit.degreeBound < Poly.wordSize := by
    rw [marginalProfit_pole]
    decide
  exact ⟨rfl, hdemand, hcost, hlimit, hprofit, hmarginal,
    @first_order_condition demand cost "Q" model rfl hdemand hcost hlimit hprofit hmarginal⟩

/-! ## A cost that wraps around -/

/-- Exponents within the limit whose product is the number of words. -/
def wrappedExponents : List ℕ := List.replicate 6 512 ++ [256, 4]

/-- The power over the first of these exponents. -/
def wrappedPower (k : ℕ) : Expr := Poly.nestedPower "Q" (wrappedExponents.take k)

/-- What the power rule leaves of the outermost power over one more exponent. -/
def loweredPower (k : ℕ) : Expr :=
  .pow (.neg (wrappedPower k)) (.const ((wrappedExponents.getD k 0 : ℕ) - 1))

/-- The demand `18446744073709551619 - Q`. -/
def wrappedDemand : Expr := .sub (.const 18446744073709551619) (.var "Q")

/-- The cost `T * Q`, where `T` is the power of the variable of degree `2 ^ 64`. -/
def wrappedCost : Expr := .mul (wrappedPower 8) (.var "Q")

/-- The market of this demand and this cost. -/
def wrappedModel : Model := modelOf wrappedDemand wrappedCost "Q"

/-- The derivative of a power, up to its sign. -/
def wrappedSlope (k : ℕ) : Expr :=
  match k with
  | 0 => .one
  | k + 1 => .mul (.const ((wrappedExponents.take (k + 1)).map fun n => -(n : Rat)).prod)
      (((List.range k).map fun i => loweredPower (i + 1)).foldl .mul (loweredPower 0))

theorem derivative_neg_pow (x : String) (e : Expr) (n : ℕ) :
    derivative x (.pow (.neg e) (.const n)) =
      Simplify.step (.mul (.mul (.const n) (.pow (.neg e) (.const (n - 1))))
        (Simplify.step (.neg (derivative x e)))) := by
  simp only [derivative, Expr.mentions, Derivative.powerRule, Derivative.predecessor,
    simplifyOnce_eq_step, Bool.false_eq_true, if_false]

theorem step_wrappedSlope : ((List.range 8).map fun k => Simplify.step
      (.mul (.mul (.const (wrappedExponents.getD k 0 : ℕ)) (loweredPower k))
        (Simplify.step (.neg (wrappedSlope k))))) =
    (List.range 8).map fun k => wrappedSlope (k + 1) := by
  cbv

theorem derivative_wrappedPower {k : ℕ} (hk : k ≤ 8) :
    derivative "Q" (wrappedPower k) = wrappedSlope k := by
  induction k with
  | zero => decide
  | succ k ih =>
    have hpower : ∀ k < 8, wrappedPower (k + 1) =
        .pow (.neg (wrappedPower k)) (.const (wrappedExponents.getD k 0 : ℕ)) := by decide
    rw [hpower k hk, derivative_neg_pow, ih (Nat.le_of_succ_le hk)]
    exact List.map_inj_left.1 step_wrappedSlope k (List.mem_range.2 hk)

/-- The product of what the power rule leaves of all of them, and of the variable. -/
def wrappedProduct : Expr := ((List.range 8).map loweredPower).foldl .mul (.var "Q")

/-- The marginal revenue `-2 * Q + 18446744073709551619`. -/
def wrappedMarginalRevenue : Expr :=
  .add (.mul (.const (-2)) (.var "Q")) (.const 18446744073709551619)

/-- The marginal cost, with the summands of the product rule apart. -/
def wrappedMarginalCost : Expr :=
  .add (.mul (.const (2 ^ 64)) wrappedProduct) (wrappedPower 8)

/-- The difference of marginal revenue and marginal cost. -/
def wrappedCondition : Expr :=
  .add (.add (.add (.mul (.const (-2)) (.var "Q")) (.mul (.const (-2 ^ 64)) wrappedProduct))
    (.neg (wrappedPower 8))) (.const 18446744073709551619)

theorem marginalRevenue_wrappedModel : wrappedModel.marginalRevenue = wrappedMarginalRevenue := by
  have hderivative : derivative "Q" (.mul wrappedDemand (.var "Q")) = wrappedMarginalRevenue := by
    simp only [wrappedDemand, derivative, Derivative.productRule, simplifyOnce_eq_step]
    with_unfolding_all rfl
  have hstep : Simplify.step wrappedMarginalRevenue = wrappedMarginalRevenue := by
    with_unfolding_all rfl
  rw [wrappedModel, modelOf, hderivative, simplify_eq_of_step hstep hstep]

theorem derivative_wrappedCost : derivative "Q" wrappedCost = wrappedMarginalCost := by
  rw [wrappedCost, derivative, derivative_wrappedPower le_rfl, Derivative.productRule,
    simplifyOnce_eq_step]
  cbv

theorem marginalCost_wrappedModel : wrappedModel.marginalCost = wrappedMarginalCost := by
  have hstep : Simplify.step wrappedMarginalCost = wrappedMarginalCost := by cbv
  rw [wrappedModel, modelOf, derivative_wrappedCost, simplify_eq_of_step hstep hstep]

theorem step_wrappedCondition : Simplify.step wrappedCondition = wrappedCondition := by
  cbv

theorem marginalProfit_wrappedModel : wrappedModel.marginalProfit = wrappedCondition := by
  have hstep : Simplify.step (.sub wrappedMarginalRevenue wrappedMarginalCost) =
      wrappedCondition := by cbv
  rw [Model.marginalProfit, marginalRevenue_wrappedModel, marginalCost_wrappedModel]
  exact simplify_eq_of_step hstep step_wrappedCondition

/-- The condition is read as `2 - 2 * Q`. -/
theorem ofExpr?_wrappedCondition :
    ofExpr? "Q" wrappedModel.marginalProfit = some (.ofPoly (.const 2 - .const 2 * .x)) := by
  rw [marginalProfit_wrappedModel]
  with_unfolding_all rfl

theorem quotientDerivative_one (n : ℚ[X]) :
    quotientDerivative n 1 = algebraMap ℚ[X] (RatFunc ℚ) (Polynomial.derivative n) := by
  rw [quotientDerivative, derivative_one, mul_one, mul_zero, sub_zero, one_pow, map_one, div_one]

/-- The derivative of the profit at zero. -/
theorem eval_zero_derivative_profit (a : Rat) {n : ℕ} (hn : n ≠ 0) :
    (Polynomial.derivative ((C a - X) * X - X ^ n * X : ℚ[X])).eval 0 = a := by
  simp [hn]

/-- The derivative of the profit is not what the condition is read as, neither for the profit as it
is read nor for the profit in the field. -/
theorem wrapped_condition_is_not_the_derivative :
    wrappedModel.marginalProfit.ExponentsWithin expansionLimit ∧
      ∃ f g n, ofExpr? "Q" wrappedModel.marginalProfit = some f ∧
        ofExpr? "Q" wrappedModel.profit = some g ∧
        f.toRatFunc ≠ quotientDerivative g.numer.toPolynomial g.denom.toPolynomial ∧
        wrappedModel.profit.ratFunc = algebraMap ℚ[X] (RatFunc ℚ) n ∧
        f.toRatFunc ≠ quotientDerivative n 1 := by
  have hexponents : Poly.EvenExponents (wrappedExponents.take 8) := by decide
  have hpower := Poly.denotes_nestedPower (x := "Q") hexponents
  have hprofit : Poly.Denotes "Q" wrappedModel.profit _ :=
    .sub (.mul (.sub (.const _) .var) .var) (.mul hpower .var)
  have hg : ofExpr? "Q" wrappedModel.profit =
      some (.ofPoly (.const 18446744073709551618 * .x - .x * .x)) := by with_unfolding_all rfl
  have hne {n : ℚ[X]} (hzero : (Polynomial.derivative n).eval 0 ≠ 2) :
      (ofPoly (.const 2 - .const 2 * .x)).toRatFunc ≠ quotientDerivative n 1 := by
    rw [toRatFunc_ofPoly, quotientDerivative_one, Ne, (RatFunc.algebraMap_injective ℚ).eq_iff]
    rintro heq
    rw [← heq] at hzero
    simp at hzero
  refine ⟨?_, _, _, _, ofExpr?_wrappedCondition, hg, ?_, hprofit.ratFunc_eq.2.2, hne ?_⟩
  · exact (ofExpr?_eq_some_iff.1 ofExpr?_wrappedCondition).exponentsWithin
  · have h := hne (n := (Poly.const 18446744073709551618 * .x - .x * .x : Poly).toPolynomial) ?_
    · rwa [← Poly.toPolynomial_one] at h
    · rw [← Poly.toPolynomial_derivative, ← Poly.eval_eq]
      with_unfolding_all decide
  · rw [eval_zero_derivative_profit _ (by decide)]
    norm_num

end MarketAlgebra.Market
