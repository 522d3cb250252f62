import Mathlib.Tactic.Linarith
import Mathlib.Tactic.NormNum
import MarketAlgebra.Calculator
import MarketAlgebra.Proofs.Derivative
import MarketAlgebra.Proofs.Formula.Affine
import MarketAlgebra.Proofs.Market.Rational
import MarketAlgebra.Proofs.Roots.LowDegree

/-!
# Linear markets

A linear demand `a - b * Q` and a linear cost `c + d * Q` meet at the quantity `(a - d) / 2b`.
Every step of the computation stays within affine expressions and then within constants, so the
whole equilibrium is known in closed form (`run_linear`): each of its values is a rational constant
with its nearest float as the approximation.
-/

namespace MarketAlgebra.Market

open Polynomial

/-- The demand `a - b * x`. -/
def linearDemand (x : String) (a b : Rat) : Expr := .sub (.const a) (.mul (.const b) (.var x))

/-- The cost `c + d * x`. -/
def linearCost (x : String) (c d : Rat) : Expr := .add (.const c) (.mul (.const d) (.var x))

variable {x : String} {a b c d q v : Rat}

/-! ## Marginal values -/

section

open Simplify

/-- A pass over a product of the variable with a constant. -/
theorem step_const_mul_var (x : String) (c : Rat) :
    step (.mul (.const c) (.var x)) = affine (.var x) c 0 := by
  have h := step_const_mul_eq_affine (atom_var x) c (step_atom_eq_affine (atom_var x))
  rwa [mul_one, mul_zero] at h

theorem step_linearDemand (x : String) (a b : Rat) :
    step (linearDemand x a b) = affine (.var x) (-b) a := by
  have h := step_sub_eq_affine (atom_var x) (step_const_eq_affine (.var x) a)
    (step_const_mul_var x b)
  rwa [zero_sub, sub_zero] at h

/-- The derivative of a multiple of the variable. -/
theorem derivative_const_mul_var (x : String) (c : Rat) :
    derivative x (.mul (.const c) (.var x)) = .const c := by
  have hvar : derivative x (.var x) = .const 1 := if_pos rfl
  have hconst : derivative x (.const c) = .const 0 := rfl
  have hsum := step_add_eq_affine (atom_var x) (step_const_mul_var x 0)
    (step_const_mul_eq_affine (atom_var x) c (step_const_eq_affine (.var x) 1))
  rw [derivative, hvar, hconst, Derivative.productRule, simplifyOnce_eq_step, hsum]
  simp [affine]

theorem derivative_linearDemand (x : String) (a b : Rat) :
    derivative x (linearDemand x a b) = .const (-b) := by
  rw [linearDemand, derivative, derivative_const_mul_var, derivative, Expr.zero, sub_const_const,
    zero_sub]

/-- The marginal revenue falls twice as fast as the demand. -/
theorem marginalRevenue_linear (x : String) (a b : Rat) :
    simplify (derivative x (.mul (linearDemand x a b) (.var x))) =
      affine (.var x) (-(2 * b)) a := by
  have hvar : derivative x (.var x) = .const 1 := if_pos rfl
  have hsum := step_add_eq_affine (atom_var x) (step_const_mul_var x (-b))
    (step_mul_const_eq_affine (atom_var x) 1 (step_linearDemand x a b))
  have hslope : -b + 1 * -b = -(2 * b) := by ring
  rw [hslope, one_mul, zero_add] at hsum
  rw [derivative, hvar, derivative_linearDemand, Derivative.productRule, simplifyOnce_eq_step, hsum]
  exact simplify_affine (atom_var x) _ _

/-- The marginal cost is constant. -/
theorem marginalCost_linear (x : String) (c d : Rat) :
    simplify (derivative x (linearCost x c d)) = .const d := by
  rw [linearCost, derivative, derivative_const_mul_var, derivative, Expr.zero, add_const_const,
    zero_add]
  exact simplify_const d

end

/-! ## The solution -/

/-- The equation `m * x + k = d` with `m` not zero has one solution. -/
theorem solve_affine (x : String) {m k d : Rat} (hm : m ≠ 0) (hq : |-(k - d) / m| ≤ 2 ^ 1023) :
    solve (Simplify.affine (.var x) m k) (.const d) x = .ok [.const (-(k - d) / m)] := by
  have hatom := Simplify.atom_var x
  have hdifference : simplify (.sub (Simplify.affine (.var x) m k) (.const d)) =
      Simplify.affine (.var x) m (k - d) := by
    refine simplify_of_step_eq_affine hatom ?_
    have hstep := Simplify.step_sub_eq_affine hatom (Simplify.step_affine hatom m k)
      (Simplify.step_const_eq_affine (.var x) d)
    rwa [sub_zero] at hstep
  obtain ⟨p, hp, hpoly⟩ := Poly.ofExpr?_affine x m (k - d)
  have hzero : ¬p.isZero = true := by
    rw [Poly.isZero_iff, hpoly]
    exact Roots.linear_ne_zero hm (k - d)
  refine solve_eq_of_rational (f := RationalFunction.ofPoly p) [-(k - d) / m] ?_ hzero
    (Roots.realRoots_of_linear hm hpoly) ?_ (by simpa using hq) (by simp)
  · rw [hdifference, RationalFunction.ofExpr?_eq_ofPoly hp]
  · simp [RationalFunction.ofPoly]

/-! ## Values -/

section

variable (x : String) (a b c d q : Rat)

theorem rational?_linearDemand :
    ((linearDemand x a b).substitute x (.const q)).rational? = some (a - b * q) := by
  simp [linearDemand, Expr.substitute, Expr.rational?]

theorem rational?_linearCost :
    ((linearCost x c d).substitute x (.const q)).rational? = some (c + d * q) := by
  simp [linearCost, Expr.substitute, Expr.rational?]

theorem ofExpr?_linearDemand :
    ∃ p, Poly.ofExpr? x (linearDemand x a b) = some p ∧ p.toPolynomial = C (-b) * X + C a := by
  refine ⟨.const a - .const b * .x, by simp [linearDemand, Poly.ofExpr?], ?_⟩
  simp
  ring

end

/-! ## The equilibrium -/

/-- The quantity at which a linear market is in equilibrium. -/
def linearQuantity (a b d : Rat) : Rat := (a - d) / (2 * b)

/-- The equilibrium of a linear market. -/
def linearEquilibrium (a b c d : Rat) : Equilibrium :=
  let q := linearQuantity a b d
  { quantity := rationalScalar q
    price := rationalScalar ((a + d) / 2)
    profit := rationalScalar (b * q ^ 2 - c)
    revenue := rationalScalar (q * (a + d) / 2)
    cost := rationalScalar (c + d * q)
    marginalRevenue := rationalScalar d
    marginalCost := rationalScalar d
    consumerSurplus := rationalScalar (b * q ^ 2 / 2)
    producerSurplus := rationalScalar (b * q ^ 2) }

/-- The choke price is not below the marginal cost, and all numbers are of a size at which nothing
overflows and a quantity that is not zero has an approximation that is not zero. -/
structure Moderate (a b c d : Rat) : Prop where
  marginal_le : d ≤ a
  slope_ge : 1 ≤ b
  marginal_nonneg : 0 ≤ d
  fixed_nonneg : 0 ≤ c
  choke_le : a ≤ 10 ^ 100
  fixed_le : c ≤ 10 ^ 100
  quantity_ge : a = d ∨ (2 ^ 1022)⁻¹ ≤ linearQuantity a b d

namespace Moderate

variable (h : Moderate a b c d)

include h

theorem quantity_nonneg : 0 ≤ linearQuantity a b d :=
  div_nonneg (sub_nonneg.2 h.marginal_le) (by linarith [h.slope_ge])

theorem slope_mul_quantity : b * linearQuantity a b d = (a - d) / 2 := by
  have hb : b ≠ 0 := by linarith [h.slope_ge]
  rw [linearQuantity]
  field_simp

theorem quantity_le : linearQuantity a b d ≤ 10 ^ 100 := by
  have hmul := h.slope_mul_quantity
  have hslope := le_mul_of_one_le_left h.quantity_nonneg h.slope_ge
  linarith [h.choke_le, h.marginal_nonneg, h.quantity_nonneg]

/-- Nothing overflows: every number of the market is a moderate multiple of the quantity plus a
moderate number. -/
theorem bounded {u t : Rat} (hv : v = u * linearQuantity a b d + t) (hu : 0 ≤ u)
    (hu' : u ≤ 10 ^ 100) (ht : -10 ^ 100 ≤ t) (ht' : t ≤ 10 ^ 100) : |v| ≤ 2 ^ 1023 := by
  have hq := h.quantity_nonneg
  have hproduct : u * linearQuantity a b d ≤ 10 ^ 100 * 10 ^ 100 :=
    mul_le_mul hu' h.quantity_le hq (hu.trans hu')
  refine abs_le_of_le_ten_pow ?_
  calc |v| ≤ |u * linearQuantity a b d| + |t| := hv ▸ abs_add_le _ _
    _ ≤ 10 ^ 100 * 10 ^ 100 + 10 ^ 100 := by
      rw [abs_of_nonneg (mul_nonneg hu hq)]
      exact add_le_add hproduct (abs_le.2 ⟨ht, ht'⟩)
    _ ≤ 10 ^ 250 := by norm_num

theorem quantity_bounded : |linearQuantity a b d| ≤ 2 ^ 1023 :=
  h.bounded (u := 1) (t := 0) (by ring) (by norm_num) (by norm_num) (by norm_num) (by norm_num)

/-- The quantity is zero, or its approximation is not. -/
theorem quantity_eq_zero_or : linearQuantity a b d = 0 ∨ (2 ^ 1022)⁻¹ ≤ |linearQuantity a b d| := by
  rw [abs_of_nonneg h.quantity_nonneg]
  exact h.quantity_ge.imp_left fun had => by rw [linearQuantity, had, sub_self, zero_div]

/-- The closed form agrees with the values at the solution. -/
theorem rationalEquilibrium_eq :
    rationalEquilibrium (linearQuantity a b d) (a - b * linearQuantity a b d)
      (c + d * linearQuantity a b d) d d
      (-b / 2 * linearQuantity a b d ^ 2 + a * linearQuantity a b d)
      (0 / 2 * linearQuantity a b d ^ 2 + d * linearQuantity a b d) =
        linearEquilibrium a b c d := by
  have hmul := h.slope_mul_quantity
  simp only [rationalEquilibrium, linearEquilibrium]
  generalize linearQuantity a b d = q at *
  have hprice : a - b * q = (a + d) / 2 := by linear_combination -hmul
  have hrevenue : (a + d) / 2 * q = q * (a + d) / 2 := by ring
  have hprofit : q * (a + d) / 2 - (c + d * q) = b * q ^ 2 - c := by
    linear_combination (-q) * hmul
  have hconsumer : -b / 2 * q ^ 2 + a * q - q * (a + d) / 2 = b * q ^ 2 / 2 := by
    linear_combination (-q) * hmul
  have hproducer : q * (a + d) / 2 - (0 / 2 * q ^ 2 + d * q) = b * q ^ 2 := by
    linear_combination (-q) * hmul
  rw [hprice, hrevenue, hprofit, hconsumer, hproducer]

/-- Every value at the solution is of moderate size. -/
theorem values_bounded : ∀ v ∈ [linearQuantity a b d, a - b * linearQuantity a b d,
    (a - b * linearQuantity a b d) * linearQuantity a b d, c + d * linearQuantity a b d,
    (a - b * linearQuantity a b d) * linearQuantity a b d - (c + d * linearQuantity a b d), d, d,
    -b / 2 * linearQuantity a b d ^ 2 + a * linearQuantity a b d,
    0 / 2 * linearQuantity a b d ^ 2 + d * linearQuantity a b d,
    -b / 2 * linearQuantity a b d ^ 2 + a * linearQuantity a b d -
      (a - b * linearQuantity a b d) * linearQuantity a b d,
    (a - b * linearQuantity a b d) * linearQuantity a b d -
      (0 / 2 * linearQuantity a b d ^ 2 + d * linearQuantity a b d)], |v| ≤ 2 ^ 1023 := by
  have hbounded := fun v u t => h.bounded (v := v) (u := u) (t := t)
  have hquantity := h.quantity_bounded
  have hmul := h.slope_mul_quantity
  obtain ⟨hda, -, hd, hc, ha, hc', -⟩ := h
  generalize linearQuantity a b d = q at *
  have hmarginal : |d| ≤ 2 ^ 1023 :=
    hbounded _ 0 d (by ring) le_rfl (by linarith) (by linarith) (by linarith)
  have hprice : |a - b * q| ≤ 2 ^ 1023 :=
    hbounded _ 0 ((a + d) / 2) (by linear_combination -hmul) le_rfl (by linarith) (by linarith)
      (by linarith)
  have hrevenue : |(a - b * q) * q| ≤ 2 ^ 1023 :=
    hbounded _ ((a + d) / 2) 0 (by linear_combination (-q) * hmul) (by linarith) (by linarith)
      (by linarith) (by linarith)
  have hcost : |c + d * q| ≤ 2 ^ 1023 :=
    hbounded _ d c (by ring) hd (by linarith) (by linarith) hc'
  have hprofit : |(a - b * q) * q - (c + d * q)| ≤ 2 ^ 1023 :=
    hbounded _ ((a - d) / 2) (-c) (by linear_combination (-q) * hmul) (by linarith)
      (by linarith) (by linarith) (by linarith)
  have hdemandArea : |-b / 2 * q ^ 2 + a * q| ≤ 2 ^ 1023 :=
    hbounded _ ((3 * a + d) / 4) 0 (by linear_combination (-q / 2) * hmul) (by linarith)
      (by linarith) (by linarith) (by linarith)
  have hcostArea : |0 / 2 * q ^ 2 + d * q| ≤ 2 ^ 1023 :=
    hbounded _ d 0 (by ring) hd (by linarith) (by linarith) (by linarith)
  have hconsumer : |-b / 2 * q ^ 2 + a * q - (a - b * q) * q| ≤ 2 ^ 1023 :=
    hbounded _ ((a - d) / 4) 0 (by linear_combination (q / 2) * hmul) (by linarith)
      (by linarith) (by linarith) (by linarith)
  have hproducer : |(a - b * q) * q - (0 / 2 * q ^ 2 + d * q)| ≤ 2 ^ 1023 :=
    hbounded _ ((a - d) / 2) 0 (by linear_combination (-q) * hmul) (by linarith) (by linarith)
      (by linarith) (by linarith)
  simp only [List.forall_mem_cons]
  exact ⟨hquantity, hprice, hrevenue, hcost, hprofit, hmarginal, hmarginal, hdemandArea, hcostArea,
    hconsumer, hproducer, nofun⟩

/-- The market at the solution. -/
theorem evaluated (x : String) :
    Evaluated (modelOf (linearDemand x a b) (linearCost x c d) x)
      (.const (linearQuantity a b d)) (linearEquilibrium a b c d) := by
  have hquantity := h.quantity_bounded
  have hzero := h.quantity_eq_zero_or
  have hbounded := h.values_bounded
  have hmarginal : -(2 * b) * linearQuantity a b d + a = d := by
    linear_combination (-2) * h.slope_mul_quantity
  rw [← h.rationalEquilibrium_eq]
  obtain ⟨p, hp, hpoly⟩ := ofExpr?_linearDemand x a b
  refine evaluated_rational (rational?_linearDemand x a b _) (rational?_linearCost x c d _) ?_ ?_
    (definiteIntegral_affine hp hpoly hquantity hzero (hbounded _ (by simp))) ?_ hbounded
  · rw [modelOf, marginalRevenue_linear, Simplify.rational?_substitute_affine, hmarginal]
  · rw [modelOf, marginalCost_linear]
    rfl
  · rw [modelOf, marginalCost_linear]
    exact definiteIntegral_affine (p := .const d) rfl (by simp) hquantity hzero
      (hbounded _ (by simp))

/-- The only solution of `MR = MC`. -/
theorem solve_marginal (x : String) :
    solve (modelOf (linearDemand x a b) (linearCost x c d) x).marginalRevenue
      (modelOf (linearDemand x a b) (linearCost x c d) x).marginalCost x =
        .ok [.const (linearQuantity a b d)] := by
  have hslope : -(2 * b) ≠ 0 := by linarith [h.slope_ge]
  have hquotient : -(a - d) / -(2 * b) = linearQuantity a b d := by
    rw [neg_div_neg_eq, linearQuantity]
  rw [modelOf, marginalRevenue_linear, marginalCost_linear,
    solve_affine x hslope (hquotient ▸ h.quantity_bounded), hquotient]

/-- Every rule chooses the only solution. -/
theorem run_choose (rule : SelectionRule) (x : String) :
    (choose Engine.exact rule (modelOf (linearDemand x a b) (linearCost x c d) x)
      [(.const (linearQuantity a b d), rationalScalar (linearQuantity a b d))]).run.run =
        .ok (some (.const (linearQuantity a b d), rationalScalar (linearQuantity a b d))) := by
  have hsign : (rationalScalar (linearQuantity a b d)).isNegative = false := by
    simpa [rationalScalar, Scalar.isNegative, Expr.constant?] using h.quantity_nonneg
  cases rule with
  | first => rfl
  | smallestNonNegative =>
    rw [choose, List.find?_cons_of_pos (by rw [hsign]; rfl)]
    rfl
  | maxProfit =>
    rw [choose, mostProfitable, if_neg (by rw [hsign]; exact Bool.false_ne_true)]
    exact run_bind_eq_ok_iff.2 ⟨_, run_substitute_eq_ok_iff.2 (h.evaluated x).profit, rfl⟩

end Moderate

/-- The equilibrium of a linear market, by any rule. -/
theorem run_linear (h : Moderate a b c d) (settings : Settings) (text text' : String) :
    (equilibriumOfInputs Engine.exact settings ⟨text, linearDemand settings.symbol a b⟩
      ⟨text', linearCost settings.symbol c d⟩).run.run = .ok (linearEquilibrium a b c d) := by
  refine run_equilibriumOfInputs_eq_ok_iff.2 ⟨_, _, ?_, ?_,
    h.run_choose settings.rule settings.symbol, h.evaluated settings.symbol⟩
  · exact h.solve_marginal settings.symbol
  · exact List.forall_mem_singleton.2 (ofExpr_const h.quantity_bounded)

/-! ## From texts -/

/-- The texts of a linear market are read as it is meant. -/
theorem run_readInputs_linear (a b c d : ℕ) : ∃ demand cost,
    (readInputs Engine.exact "Q"
      (Formula.normalize (toString a ++ " - " ++ toString b ++ "Q"))
      (Formula.normalize (toString c ++ " + " ++ toString d ++ "Q"))).run.run =
        .ok (⟨demand, linearDemand "Q" a b⟩, ⟨cost, linearCost "Q" c d⟩) := by
  have hletters : ∀ c ∈ "Q".toList, c.isAlpha = true := by simp
  have hword : Formula.words "Q".toList = ["Q".toList] := by
    have hchar : Formula.isWordChar 'Q' = true := by
      rw [Formula.isWordChar, Text.isAlphanumeric_of_isAlphanum rfl, Bool.true_or]
    simp [Formula.words, hchar]
  refine ⟨_, _, run_readInputs_eq_ok_iff.2 ⟨run_read_eq_ok_iff.2 ⟨.inr ?_, ?_, rfl⟩,
    run_read_eq_ok_iff.2 ⟨.inl rfl, ?_, rfl⟩⟩⟩
  · exact Formula.hasWord_normalize_minus (by simp) hletters a b hword
  · exact Formula.readIn_normalize_minus (by simp) hletters a b
  · exact Formula.readIn_normalize_plus (by simp) hletters c d

theorem moderate_natCast {a b c d : ℕ} (ha : a < 10 ^ 100) (hb : b < 10 ^ 100)
    (hc : c < 10 ^ 100) (hslope : 1 ≤ b) (hmarginal : d ≤ a) :
    Moderate (a : Rat) (b : Rat) (c : Rat) (d : Rat) where
  marginal_le := by exact_mod_cast hmarginal
  slope_ge := by exact_mod_cast hslope
  marginal_nonneg := Nat.cast_nonneg d
  fixed_nonneg := Nat.cast_nonneg c
  choke_le := by exact_mod_cast ha.le
  fixed_le := by exact_mod_cast hc.le
  quantity_ge := by
    rcases hmarginal.eq_or_lt with heq | hlt
    · exact .inl (by rw [heq])
    · have hsucc : (d : Rat) + 1 ≤ a := by exact_mod_cast hlt
      have hb0 : (0 : Rat) < b := by exact_mod_cast hslope
      have hb' : (b : Rat) ≤ 10 ^ 100 := by exact_mod_cast hb.le
      refine .inr ?_
      rw [linearQuantity, le_div_iff₀ (by linarith)]
      calc (2 ^ 1022)⁻¹ * (2 * (b : Rat)) ≤ (2 ^ 1022)⁻¹ * (2 * 10 ^ 100) := by gcongr
        _ ≤ (2 ^ 1022)⁻¹ * 2 ^ 1022 := by
          gcongr
          calc (2 * 10 ^ 100 : Rat) ≤ (2 ^ 73) ^ 14 := by norm_num
            _ = 2 ^ 1022 := (pow_mul 2 73 14).symm
        _ = 1 := inv_mul_cancel₀ (by positivity)
        _ ≤ a - d := by linarith

/-- The equilibrium of every linear market of moderate size, from its texts: all values are rational
constants in closed form. -/
theorem linear_market_closed_form (a b c d : ℕ) (ha : a < 10 ^ 100) (hb : b < 10 ^ 100)
    (hc : c < 10 ^ 100) (hslope : 1 ≤ b) (hmarginal : d ≤ a) :
    ∃ r, Calculator.equilibriumOfShorthand (toString a ++ " - " ++ toString b ++ "Q")
        (toString c ++ " + " ++ toString d ++ "Q") = .ok r ∧ ∃ q : Rat, q = (a - d) / (2 * b) ∧
      r.quantity.exact = .const q ∧
      r.price.exact = .const ((a + d) / 2) ∧
      r.revenue.exact = .const (q * (a + d) / 2) ∧
      r.cost.exact = .const (c + d * q) ∧
      r.profit.exact = .const (b * q ^ 2 - c) ∧
      r.marginalRevenue.exact = .const d ∧
      r.marginalCost.exact = .const d ∧
      r.consumerSurplus.exact = .const (b * q ^ 2 / 2) ∧
      r.producerSurplus.exact = .const (b * q ^ 2) := by
  obtain ⟨demand, cost, hinputs⟩ := run_readInputs_linear a b c d
  have hrun := run_linear (moderate_natCast ha hb hc hslope hmarginal) {} demand cost
  exact ⟨linearEquilibrium a b c d, run_bind_eq_ok_iff.2 ⟨_, hinputs, hrun⟩,
    linearQuantity a b d, rfl, rfl, rfl, rfl, rfl, rfl, rfl, rfl, rfl, rfl⟩

/-- The market with the demand `100 - Q` and the cost `10 + 2Q` sells 49. -/
theorem linear_market_closed_form_hundred :
    ∃ r, Calculator.equilibriumOfShorthand "100 - 1Q" "10 + 2Q" = .ok r ∧
      r.quantity.exact = .const 49 ∧ r.price.exact = .const 51 ∧ r.profit.exact = .const 2391 := by
  obtain ⟨r, hr, q, hq, hquantity, hprice, -, -, hprofit, -⟩ :=
    linear_market_closed_form 100 1 10 2 (by norm_num) (by norm_num) (by norm_num) (by norm_num)
      (by norm_num)
  refine ⟨r, hr, ?_, ?_, ?_⟩
  · rw [hquantity, hq]
    norm_num
  · rw [hprice]
    norm_num
  · rw [hprofit, hq]
    norm_num

end MarketAlgebra.Market
