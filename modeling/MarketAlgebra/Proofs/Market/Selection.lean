import MarketAlgebra.Proofs.Derivative
import MarketAlgebra.Proofs.Formula.Shorthand
import MarketAlgebra.Proofs.Market.Rational

/-!
# The most profitable solution

The rule of the highest profit compares approximations.  It chooses the first of the solutions
whose approximate profit is highest among those that are not negative
(`max_profit_up_to_rounding`).  Rounding keeps the order of rationals, so a rational profit that is
higher than the chosen one has the same approximation.  This happens under a fixed cost that is much
larger than what the solutions differ by.
-/

namespace MarketAlgebra.Market

open Binary64 (position lt_iff_position_lt)

/-! ## Evaluated floats are finite -/

theorem isFinite_of_finite {e : Expr} {x v : Float} (h : e.finite x = .ok v) :
    v.isFinite = true := by
  rw [Expr.finite] at h
  split at h
  next hx => exact Except.ok.inj h ▸ hx
  next => cases h

/-- A value that is returned is finite. -/
theorem isFinite_of_evalIn {env : String → Option Float} {e : Expr} {v : Float}
    (h : e.evalIn env = .ok v) : v.isFinite = true := by
  cases e with
  | var x =>
    rw [Expr.evalIn] at h
    split at h
    · exact isFinite_of_finite h
    · cases h
  | const c => exact isFinite_of_finite h
  | add a b | sub a b | mul a b | pow a b =>
    obtain ⟨x, -, h⟩ := bind_eq_ok_iff.1 h
    obtain ⟨y, -, h⟩ := bind_eq_ok_iff.1 h
    exact isFinite_of_finite h
  | div a b =>
    obtain ⟨y, -, h⟩ := bind_eq_ok_iff.1 h
    split at h
    · cases h
    · obtain ⟨x, -, h⟩ := bind_eq_ok_iff.1 h
      exact isFinite_of_finite h
  | neg a =>
    obtain ⟨x, -, h⟩ := bind_eq_ok_iff.1 h
    exact isFinite_of_finite h
  | call f a =>
    obtain ⟨x, -, h⟩ := bind_eq_ok_iff.1 h
    cases f with
    | log =>
      simp only at h
      split at h
      · cases h
      · exact isFinite_of_finite h
    | _ => exact isFinite_of_finite h

theorem isFinite_of_evaluate {e : Expr} {v : Float} (h : e.evaluate = .ok v) : v.isFinite = true :=
  isFinite_of_evalIn h

/-! ## The first of the highest -/

section

variable {α : Type} {ps : List (α × Float)}

/-- The better one of the best pair so far and the next one, by the second part. -/
def better (best : Option (α × Float)) (p : α × Float) : Option (α × Float) :=
  if best.all fun b => b.2 < p.2 then some p else best

/-- The pair has a higher place than everything before it, and nothing after it has a higher one. -/
structure FirstHighest (before : List (α × Float)) (b : α × Float) (after : List (α × Float)) :
    Prop where
  before_lt : ∀ p ∈ before, position p.2 < position b.2
  after_le : ∀ p ∈ after, position p.2 ≤ position b.2

/-- What is best in the end is the first of the highest. -/
theorem foldl_better {a : α × Float} (hfinite : ∀ p ∈ a :: ps, p.2.isFinite = true) :
    ∃ before b after, ps.foldl better (some a) = some b ∧ a :: ps = before ++ b :: after ∧
      FirstHighest before b after := by
  induction ps generalizing a with
  | nil => exact ⟨[], a, [], rfl, rfl, nofun, nofun⟩
  | cons p ps ih =>
    obtain ⟨ha, hfinite⟩ := List.forall_mem_cons.1 hfinite
    obtain ⟨hp, hps⟩ := List.forall_mem_cons.1 hfinite
    have hbest : better (some a) p =
        if position a.2 < position p.2 then some p else some a := by
      simp [better, lt_iff_position_lt ha hp]
    rw [List.foldl_cons, hbest]
    split
    next hlt =>
      obtain ⟨before, b, after, hfold, hsplit, hb⟩ := ih (List.forall_mem_cons.2 ⟨hp, hps⟩)
      have hall : ∀ q ∈ before ++ b :: after, position q.2 ≤ position b.2 :=
        List.forall_mem_append.2 ⟨fun q hq => (hb.before_lt q hq).le,
          List.forall_mem_cons.2 ⟨le_rfl, hb.after_le⟩⟩
      have hle := hall p (hsplit ▸ List.mem_cons_self)
      exact ⟨a :: before, b, after, hfold, by rw [hsplit]; rfl,
        List.forall_mem_cons.2 ⟨hlt.trans_le hle, hb.before_lt⟩, hb.after_le⟩
    next hle =>
      obtain ⟨before, b, after, hfold, hsplit, hb⟩ := ih (List.forall_mem_cons.2 ⟨ha, hps⟩)
      rw [not_lt] at hle
      cases before with
      | nil =>
        obtain ⟨rfl, rfl⟩ := List.cons_eq_cons.1 hsplit
        exact ⟨[], a, p :: ps, hfold, rfl, nofun, List.forall_mem_cons.2 ⟨hle, hb.after_le⟩⟩
      | cons c before =>
        obtain ⟨rfl, rfl⟩ := List.cons_eq_cons.1 hsplit
        obtain ⟨ha', hbefore⟩ := List.forall_mem_cons.1 hb.before_lt
        exact ⟨a :: p :: before, b, after, hfold, rfl,
          List.forall_mem_cons.2 ⟨ha', List.forall_mem_cons.2 ⟨hle.trans_lt ha', hbefore⟩⟩,
          hb.after_le⟩

theorem foldl_better_none {b : α × Float} (hfinite : ∀ p ∈ ps, p.2.isFinite = true)
    (h : ps.foldl better none = some b) :
    ∃ before after, ps = before ++ b :: after ∧ FirstHighest before b after := by
  cases ps with
  | nil => cases h
  | cons a ps =>
    obtain ⟨before, c, after, hfold, hsplit, hc⟩ := foldl_better hfinite
    obtain rfl := Option.some.inj (hfold.symm.trans h)
    exact ⟨before, after, hsplit, hc⟩

end

/-! ## The rule of the highest profit -/

variable {model : Model} {cs : List Candidate} {c : Candidate}

/-- The approximate profit of a candidate. -/
def ApproxProfit (model : Model) (c : Candidate) (p : Float) : Prop :=
  ∃ v, Scalar.ofExpr (model.profit.substitute model.symbol c.1) = .ok v ∧ v.approx = p

/-- The search goes through the approximate profits of the candidates that are not negative. -/
theorem mostProfitable_eq_foldl {best : Option (Candidate × Float)} {result : Option Candidate}
    (h : (mostProfitable Engine.exact model best cs).run.run = .ok result) :
    ∃ ps : List (Candidate × Float), ps.map (·.1) = cs.filter (fun c => !c.2.isNegative) ∧
      (∀ p ∈ ps, ApproxProfit model p.1 p.2) ∧ result = (ps.foldl better best).map (·.1) := by
  induction cs generalizing best with
  | nil => exact ⟨[], rfl, nofun, (run_pure_eq_ok_iff.1 h).symm⟩
  | cons d cs ih =>
    rw [mostProfitable] at h
    split at h
    case isTrue hneg =>
      obtain ⟨ps, hmap, hprofit, hresult⟩ := ih h
      exact ⟨ps, by rw [hmap, List.filter_cons_of_neg (by simp [hneg])], hprofit, hresult⟩
    case isFalse hneg =>
      obtain ⟨v, hv, h⟩ := run_bind_eq_ok_iff.1 h
      obtain ⟨ps, hmap, hprofit, hresult⟩ := ih h
      refine ⟨(d, v.approx) :: ps, ?_, ?_, hresult⟩
      · rw [List.map_cons, hmap, List.filter_cons_of_pos (by simp [hneg])]
      · exact List.forall_mem_cons.2 ⟨⟨v, run_substitute_eq_ok_iff.1 hv, rfl⟩, hprofit⟩

theorem ApproxProfit.unique {p q : Float} (hp : ApproxProfit model c p)
    (hq : ApproxProfit model c q) : p = q := by
  obtain ⟨v, hv, rfl⟩ := hp
  obtain ⟨w, hw, rfl⟩ := hq
  rw [Except.ok.inj (hv.symm.trans hw)]

/-- An approximate profit is a finite float. -/
theorem ApproxProfit.isFinite {p : Float} (h : ApproxProfit model c p) : p.isFinite = true := by
  obtain ⟨v, hv, rfl⟩ := h
  exact isFinite_of_evaluate (ofExpr_eq_ok_iff.1 hv).2

/-- Every candidate that is not negative was compared by its approximate profit. -/
theorem mem_of_filter_eq_map {cs : List Candidate} {ps : List (Candidate × Float)} {p : Float}
    (hmap : cs.filter (fun c => !c.2.isNegative) = ps.map (·.1))
    (hprofit : ∀ p ∈ ps, ApproxProfit model p.1 p.2) (hc : c ∈ cs) (hsign : c.2.isNegative = false)
    (hp : ApproxProfit model c p) : (c, p) ∈ ps := by
  have hmem : c ∈ ps.map (·.1) := hmap ▸ List.mem_filter.2 ⟨hc, by simp [hsign]⟩
  obtain ⟨⟨d, q⟩, hd, rfl⟩ := List.mem_map.1 hmem
  rwa [hp.unique (hprofit _ hd)]

/-- The candidate is the first of those with the highest approximate profit. -/
theorem of_mostProfitable
    (h : (mostProfitable Engine.exact model none cs).run.run = .ok (some c)) :
    ∃ before after top, cs = before ++ c :: after ∧ c.2.isNegative = false ∧
      ApproxProfit model c top ∧
      (∀ d ∈ before, d.2.isNegative = false → ∀ p, ApproxProfit model d p →
        position p < position top) ∧
      ∀ d ∈ after, d.2.isNegative = false → ∀ p, ApproxProfit model d p →
        position p ≤ position top := by
  obtain ⟨ps, hmap, hprofit, hresult⟩ := mostProfitable_eq_foldl h
  obtain ⟨⟨_, top⟩, hfold, rfl⟩ := Option.map_eq_some_iff.1 hresult.symm
  obtain ⟨before', after', rfl, hhighest⟩ :=
    foldl_better_none (fun p hp => (hprofit p hp).isFinite) hfold
  rw [List.map_append, List.map_cons] at hmap
  obtain ⟨before, rest, rfl, hbefore, hrest⟩ := List.filter_eq_append_iff.1 hmap.symm
  obtain ⟨skipped, after, rfl, hskipped, hsign, hafter⟩ := List.filter_eq_cons_iff.1 hrest
  refine ⟨before ++ skipped, after, top, by simp, by simpa using hsign, hprofit _ (by simp), ?_, ?_⟩
  · intro d hd hsign p hp
    rcases List.mem_append.1 hd with hd | hd
    · exact hhighest.before_lt (d, p) (mem_of_filter_eq_map hbefore
        (fun p hp => hprofit p (List.mem_append_left _ hp)) hd hsign hp)
    · have hnot : (!d.2.isNegative) = true := by rw [hsign]; rfl
      exact absurd hnot (hskipped d hd)
  · intro d hd hsign p hp
    exact hhighest.after_le (d, p) (mem_of_filter_eq_map hafter
      (fun p hp => hprofit p (List.mem_append_right _ (List.mem_cons_of_mem _ hp))) hd hsign hp)

/-- A rational value is approximated by the nearest float. -/
theorem approx_of_exact_eq_const {e : Expr} {v : Scalar} {b : Rat} (h : Scalar.ofExpr e = .ok v)
    (hb : v.exact = .const b) : v.approx = Binary64.ofRat b := by
  obtain ⟨hexact, heval⟩ := ofExpr_eq_ok_iff.1 h
  rw [← hexact, hb] at heval
  change (Expr.const b).finite (Binary64.ofRat b) = .ok v.approx at heval
  rw [Expr.finite] at heval
  split at heval
  · exact (Except.ok.inj heval).symm
  · cases heval

/-- A solution that is not negative has the profit `v`. -/
def ProfitAt (model : Model) (solution : Expr) (v : Scalar) : Prop :=
  (∃ q, Scalar.ofExpr solution = .ok q ∧ q.isNegative = false) ∧
    Scalar.ofExpr (model.profit.substitute model.symbol solution) = .ok v

theorem ProfitAt.isFinite {solution : Expr} {v : Scalar} (h : ProfitAt model solution v) :
    v.approx.isFinite = true :=
  isFinite_of_evaluate (ofExpr_eq_ok_iff.1 h.2).2

section

variable {settings : Settings} {demand cost : Input} {r : Equilibrium}
  (hrule : settings.rule = .maxProfit)
  (h : (equilibriumOfInputs Engine.exact settings demand cost).run.run = .ok r)

include hrule h

/-- Where the chosen profit stands among the profits of all solutions. -/
theorem exists_highest : ∃ model before root after,
    (Model.ofInputs Engine.exact demand cost settings.symbol).run.run = .ok model ∧
    solve model.marginalRevenue model.marginalCost settings.symbol =
      .ok (before ++ root :: after) ∧
    Scalar.ofExpr root = .ok r.quantity ∧ ProfitAt model root r.profit ∧
    (∀ other ∈ before, ∀ v, ProfitAt model other v →
      position v.approx < position r.profit.approx) ∧
    ∀ other ∈ after, ∀ v, ProfitAt model other v →
      position v.approx ≤ position r.profit.approx := by
  obtain ⟨cs, c, hsolve, hvalues, hchoose, hr⟩ := run_equilibriumOfInputs_eq_ok_iff.1 h
  rw [hrule] at hchoose
  obtain ⟨before, after, top, rfl, hsign, htop, hbefore, hafter⟩ := of_mostProfitable hchoose
  have hc := hvalues c (by simp)
  have hquantity : c.2 = r.quantity := Except.ok.inj (hc.symm.trans hr.quantity)
  obtain rfl := htop.unique ⟨r.profit, hr.profit, rfl⟩
  have hcompared : ∀ d ∈ before ++ c :: after, ∀ v,
      ProfitAt (modelOf demand.expr cost.expr settings.symbol) d.1 v →
      d.2.isNegative = false ∧
        ApproxProfit (modelOf demand.expr cost.expr settings.symbol) d v.approx := by
    rintro d hd v ⟨⟨q, hq, hqsign⟩, hv⟩
    obtain rfl : d.2 = q := Except.ok.inj ((hvalues d hd).symm.trans hq)
    exact ⟨hqsign, v, hv, rfl⟩
  refine ⟨_, before.map (·.1), c.1, after.map (·.1), run_ofInputs demand cost settings.symbol, ?_,
    hquantity ▸ hc, ⟨⟨c.2, hc, hsign⟩, hr.profit⟩, fun other hother v hv => ?_,
    fun other hother v hv => ?_⟩
  · rw [hsolve, List.map_append, List.map_cons]
  · obtain ⟨d, hd, rfl⟩ := List.mem_map.1 hother
    obtain ⟨hdsign, hdv⟩ := hcompared d (by simp [hd]) v hv
    exact hbefore d hd hdsign _ hdv
  · obtain ⟨d, hd, rfl⟩ := List.mem_map.1 hother
    obtain ⟨hdsign, hdv⟩ := hcompared d (by simp [hd]) v hv
    exact hafter d hd hdsign _ hdv

/-- The rule of the highest profit finds the highest profit up to rounding.  Solutions before the
chosen one have a lower approximate profit, and those after it do not have a higher one.  If the
exact profit of a solution is higher than the chosen one and both are rational, then their
approximations are the same. -/
theorem max_profit_up_to_rounding : ∃ model before root after,
    (Model.ofInputs Engine.exact demand cost settings.symbol).run.run = .ok model ∧
    solve model.marginalRevenue model.marginalCost settings.symbol =
      .ok (before ++ root :: after) ∧
    Scalar.ofExpr root = .ok r.quantity ∧ ProfitAt model root r.profit ∧
    (∀ other ∈ before, ∀ v, ProfitAt model other v → v.approx < r.profit.approx) ∧
    (∀ other ∈ after, ∀ v, ProfitAt model other v → ¬r.profit.approx < v.approx) ∧
    ∀ other ∈ before ++ root :: after, ∀ v, ProfitAt model other v → ∀ a b,
      r.profit.exact = .const a → v.exact = .const b → a < b →
        (v.approx == r.profit.approx) = true := by
  obtain ⟨model, before, root, after, hmodel, hsolve, hquantity, hchosen, hbefore, hafter⟩ :=
    exists_highest hrule h
  refine ⟨model, before, root, after, hmodel, hsolve, hquantity, hchosen,
    fun other hother v hv => ?_, fun other hother v hv => ?_,
    fun other hother v hv a b ha hb hab => ?_⟩
  · exact (lt_iff_position_lt hv.isFinite hchosen.isFinite).2 (hbefore other hother v hv)
  · rw [lt_iff_position_lt hchosen.isFinite hv.isFinite]
    exact (hafter other hother v hv).not_gt
  · have hle : position v.approx ≤ position r.profit.approx := by
      rcases List.mem_append.1 hother with hother | hother
      · exact (hbefore other hother v hv).le
      · rcases List.mem_cons.1 hother with rfl | hother
        · rw [Except.ok.inj (hv.2.symm.trans hchosen.2)]
        · exact hafter other hother v hv
    have hge : position r.profit.approx ≤ position v.approx := by
      rw [approx_of_exact_eq_const hchosen.2 ha, approx_of_exact_eq_const hv.2 hb]
      exact Binary64.position_ofRat_mono hab.le
    exact (Binary64.beq_iff_position_eq hv.isFinite hchosen.isFinite).2 (hle.antisymm hge)

end

/-! ## A large fixed cost -/

/-- The demand `100 - Q`. -/
def sunkDemand : Expr := .sub (.const 100) (.var "Q")

/-- The cost `Q^3/3 - 10*Q^2 + 117*Q + 10^30`. -/
def sunkCost : Expr :=
  .add (.add (.sub (.div (.pow (.var "Q") (.const 3)) (.const 3))
    (.mul (.const 10) (.pow (.var "Q") (.const 2)))) (.mul (.const 117) (.var "Q")))
    (.pow (.const 10) (.const 30))

/-- The market of this demand and this cost. -/
def sunkModel : Model := modelOf sunkDemand sunkCost "Q"

/-- The marginal revenue `-2*Q + 100`. -/
def sunkMarginalRevenue : Expr := .add (.mul (.const (-2)) (.var "Q")) (.const 100)

/-- The marginal cost `-20*Q + Q^2 + 117`. -/
def sunkMarginalCost : Expr :=
  .add (.add (.mul (.const (-20)) (.var "Q")) (.pow (.var "Q") (.const 2))) (.const 117)

/-- The difference of marginal revenue and marginal cost. -/
def sunkNumerator : Poly := .const 18 * .x + -Poly.pow .x 2 + .const (-17)

theorem marginalRevenue_sunkModel : sunkModel.marginalRevenue = sunkMarginalRevenue := by
  have hderivative : derivative "Q" (.mul sunkDemand (.var "Q")) = sunkMarginalRevenue := by
    simp only [sunkDemand, derivative, Derivative.productRule, simplifyOnce_eq_step]
    cbv
  have hsimple : simplify sunkMarginalRevenue = sunkMarginalRevenue :=
    simplify_eq_of_step (by cbv) (by cbv)
  rw [sunkModel, modelOf, hderivative, hsimple]

theorem marginalCost_sunkModel : sunkModel.marginalCost = sunkMarginalCost := by
  have hderivative : derivative "Q" sunkCost = sunkMarginalCost := by
    simp only [sunkCost, derivative, Derivative.productRule, Derivative.powerRule,
      simplifyOnce_eq_step]
    cbv
  have hsimple : simplify sunkMarginalCost = sunkMarginalCost :=
    simplify_eq_of_step (by cbv) (by cbv)
  rw [sunkModel, modelOf, hderivative, hsimple]

theorem realRoots_sunkNumerator : Roots.realRoots sunkNumerator = [.const 1, .const 17] := by
  have hsize : ¬sunkNumerator.squareFreePart.size ≤ 1 := by cbv
  have hrational : Roots.rationalRoots sunkNumerator.squareFreePart = [1, 17] := by cbv
  have hremaining : Roots.remainingRoots
      ([1, 17].foldl Roots.divideOut sunkNumerator.squareFreePart) = [] := by cbv
  have hsorted : [Roots.approximated 1, Roots.approximated 17].mergeSort
      (fun r s => Binary64.notAfter r.2 s.2) = [Roots.approximated 1, Roots.approximated 17] :=
    List.mergeSort_of_pairwise
      (List.pairwise_pair.2 (Binary64.notAfter_ofRat (by norm_num)))
  simp only [Roots.realRoots, if_neg hsize, hrational, hremaining]
  rw [List.append_nil, List.map_cons, List.map_cons, List.map_nil, hsorted]
  rfl

theorem ofExpr?_sunkModel : RationalFunction.ofExpr? "Q"
    (simplify (.sub sunkModel.marginalRevenue sunkModel.marginalCost)) =
      some (.ofPoly sunkNumerator) := by
  have hdifference : simplify (.sub sunkMarginalRevenue sunkMarginalCost) =
      .add (.add (.mul (.const 18) (.var "Q")) (.neg (.pow (.var "Q") (.const 2))))
        (.const (-17)) :=
    simplify_eq_of_step (by cbv) (by cbv)
  rw [marginalRevenue_sunkModel, marginalCost_sunkModel, hdifference]
  exact RationalFunction.ofExpr?_eq_ofPoly rfl

theorem solve_sunkModel :
    solve sunkModel.marginalRevenue sunkModel.marginalCost "Q" = .ok [.const 1, .const 17] := by
  have hnonzero : ¬sunkNumerator.isZero = true := Bool.eq_false_iff.1 (by cbv)
  have hbounded : ∀ a ∈ [(1 : Rat), 17], |a| ≤ 2 ^ 1023 := fun a ha =>
    abs_le_of_le_ten_pow (by fin_cases ha <;> norm_num)
  exact solve_eq_of_rational [1, 17] ofExpr?_sunkModel hnonzero realRoots_sunkNumerator
    (by simp [RationalFunction.ofPoly]) hbounded (by norm_num)

section

variable (q : Rat)

theorem rational?_sunkCost : (sunkCost.substitute "Q" (.const q)).rational? =
    some (q ^ 3 / 3 - 10 * q ^ 2 + 117 * q + 10 ^ 30) := by
  have hsquare : rationalPower? q 2 = some (q ^ 2) := rationalPower?_natCast q (by norm_num)
  have hcube : rationalPower? q 3 = some (q ^ 3) := rationalPower?_natCast q (by norm_num)
  have hfixed : rationalPower? 10 30 = some (10 ^ 30) := rationalPower?_natCast 10 (by norm_num)
  simp [sunkCost, Expr.substitute, Expr.rational?, hsquare, hcube, hfixed]

theorem rational?_sunkMarginalCost : (sunkMarginalCost.substitute "Q" (.const q)).rational? =
    some (-20 * q + q ^ 2 + 117) := by
  have hsquare : rationalPower? q 2 = some (q ^ 2) := rationalPower?_natCast q (by norm_num)
  simp [sunkMarginalCost, Expr.substitute, Expr.rational?, hsquare]

theorem rational?_sunkProfit : (sunkModel.profit.substitute "Q" (.const q)).rational? =
    some ((100 - q) * q - (q ^ 3 / 3 - 10 * q ^ 2 + 117 * q + 10 ^ 30)) := by
  change (Expr.sub (.mul (.sub (.const 100) (.const q)) (.const q))
    (sunkCost.substitute "Q" (.const q))).rational? = _
  rw [Expr.rational?, rational?_sunkCost]
  rfl

end

/-- The profit at a solution. -/
theorem profitAt_sunkModel {q v : Rat} (hq : 0 ≤ q) (hq' : |q| ≤ 10 ^ 250)
    (hv : (100 - q) * q - (q ^ 3 / 3 - 10 * q ^ 2 + 117 * q + 10 ^ 30) = v)
    (hv' : |v| ≤ 10 ^ 250) : ProfitAt sunkModel (.const q) (rationalScalar v) :=
  ⟨⟨_, ofExpr_const (abs_le_of_le_ten_pow hq'),
    by simpa [rationalScalar, Scalar.isNegative, Expr.constant?] using hq⟩,
    ofExpr_of_rational? (hv ▸ rational?_sunkProfit q) (abs_le_of_le_ten_pow hv')⟩

theorem profitAt_one : ProfitAt sunkModel (.const 1) (rationalScalar (-10 ^ 30 - 25 / 3)) :=
  profitAt_sunkModel (by norm_num) (by norm_num) (by norm_num) (by norm_num [abs_le])

theorem profitAt_seventeen :
    ProfitAt sunkModel (.const 17) (rationalScalar (-10 ^ 30 + 2023 / 3)) :=
  profitAt_sunkModel (by norm_num) (by norm_num) (by norm_num) (by norm_num [abs_le])

/-- Every rule chooses the first solution.  The rule of the highest profit does so because both
profits have the same approximation. -/
theorem run_choose_sunkModel (rule : SelectionRule) : (choose Engine.exact rule sunkModel
    [(.const 1, rationalScalar 1), (.const 17, rationalScalar 17)]).run.run =
      .ok (some (.const 1, rationalScalar 1)) := by
  cases rule with
  | first => rfl
  | smallestNonNegative => rfl
  | maxProfit =>
    have hsame : ¬Binary64.ofRat (-10 ^ 30 - 25 / 3) < Binary64.ofRat (-10 ^ 30 + 2023 / 3) := by
      decide +kernel
    rw [choose, mostProfitable, if_neg (by decide)]
    refine run_bind_eq_ok_iff.2 ⟨_, run_substitute_eq_ok_iff.2 profitAt_one.2, ?_⟩
    rw [mostProfitable, if_neg (by decide)]
    refine run_bind_eq_ok_iff.2 ⟨_, run_substitute_eq_ok_iff.2 profitAt_seventeen.2, ?_⟩
    simp [mostProfitable, rationalScalar, hsame]

/-- The equilibrium at the quantity 1. -/
def sunkEquilibrium : Equilibrium :=
  rationalEquilibrium 1 99 (10 ^ 30 + 322 / 3) 98 98 (199 / 2) (322 / 3)

theorem evaluated_sunkModel : Evaluated sunkModel (.const 1) sunkEquilibrium := by
  have hone : |(1 : Rat)| ≤ 2 ^ 1023 := abs_le_of_le_ten_pow (by norm_num)
  have hnonzero : (1 : Rat) = 0 ∨ (2 ^ 1022)⁻¹ ≤ |(1 : Rat)| :=
    .inr (by simpa using inv_le_one_of_one_le₀ (one_le_pow₀ one_le_two))
  have hprice : (100 - 1 : Rat) = 99 := by norm_num
  have hcost : (1 ^ 3 / 3 - 10 * 1 ^ 2 + 117 * 1 + 10 ^ 30 : Rat) = 10 ^ 30 + 322 / 3 := by
    norm_num
  have hrevenue : (-2 * 1 + 100 : Rat) = 98 := by norm_num
  have hmarginal : (-20 * 1 + 1 ^ 2 + 117 : Rat) = 98 := by norm_num
  have hdemandArea : definiteIntegral "Q" sunkDemand .zero (.const 1) = .ok (.const (199 / 2)) := by
    have harea : (Poly.const 100 - Poly.x).integral.eval 1 = 199 / 2 := by cbv
    rw [← harea]
    exact definiteIntegral_const rfl (by cbv) (by cbv) hone hnonzero
      (abs_le_of_le_ten_pow (by rw [harea]; norm_num))
  have hcostArea : definiteIntegral "Q" sunkMarginalCost .zero (.const 1) =
      .ok (.const (322 / 3)) := by
    have harea : (Poly.const (-20) * Poly.x + Poly.x.pow 2 + Poly.const 117).integral.eval 1 =
        322 / 3 := by cbv
    rw [← harea]
    exact definiteIntegral_const rfl (by cbv) (by cbv) hone hnonzero
      (abs_le_of_le_ten_pow (by rw [harea]; norm_num))
  refine evaluated_rational (hprice ▸ rfl) (hcost ▸ rational?_sunkCost 1) ?_ ?_ hdemandArea ?_ ?_
  · change (sunkModel.marginalRevenue.substitute "Q" (.const 1)).rational? = _
    rw [marginalRevenue_sunkModel, ← hrevenue]
    rfl
  · change (sunkModel.marginalCost.substitute "Q" (.const 1)).rational? = _
    rw [marginalCost_sunkModel, rational?_sunkMarginalCost, hmarginal]
  · change definiteIntegral "Q" sunkModel.marginalCost .zero (.const 1) = _
    rw [marginalCost_sunkModel, hcostArea]
  · refine fun v hv => abs_le_of_le_ten_pow ?_
    fin_cases hv <;> norm_num [abs_le]

/-- The equilibrium, by any rule. -/
theorem run_sunkModel (rule : SelectionRule) (text text' : String) :
    (equilibriumOfInputs Engine.exact {rule} ⟨text, sunkDemand⟩ ⟨text', sunkCost⟩).run.run =
      .ok sunkEquilibrium := by
  have hvalues : ∀ c ∈ [(Expr.const 1, rationalScalar 1), (.const 17, rationalScalar 17)],
      Scalar.ofExpr c.1 = .ok c.2 := by
    simp only [List.forall_mem_cons]
    exact ⟨ofExpr_const (abs_le_of_le_ten_pow (by norm_num)),
      ofExpr_const (abs_le_of_le_ten_pow (by norm_num)), nofun⟩
  refine run_equilibriumOfInputs_eq_ok_iff.2
    ⟨_, _, ?_, hvalues, run_choose_sunkModel rule, evaluated_sunkModel⟩
  exact solve_sunkModel

theorem readIn_sunkDemand : Formula.readIn "100 - Q" "Q" = .ok sunkDemand := by
  refine Formula.readIn_eq_ok_iff.2 ⟨Formula.parse?_eq_some_iff.2 ⟨_, by cbv, ?_⟩, by decide⟩
  exact .minus (.ofProduct (.ofSigned (Formula.Derives.number 100).primary_signed))
    (.ofSigned (Formula.Derives.name "Q").primary_signed)

theorem derives_thirdOfCube :
    Formula.Derives .product [.name "Q", .power, .number 3, .over, .number 3]
      (.div (.pow (.var "Q") (.const 3)) (.const 3)) :=
  .divided (.ofSigned ((Formula.Derives.name "Q").raise_number 3))
    (Formula.Derives.number 3).primary_signed

theorem readIn_sunkCost :
    Formula.readIn "Q^3/3 - 10*Q^2 + 117*Q + 10^30" "Q" = .ok sunkCost := by
  have hname := Formula.Derives.name "Q"
  refine Formula.readIn_eq_ok_iff.2 ⟨Formula.parse?_eq_some_iff.2 ⟨_, by cbv, ?_⟩, by decide⟩
  have hvariable := Formula.Derives.minus (.ofProduct derives_thirdOfCube)
    (.number_times 10 (hname.raise_number 2))
  exact .plus (.plus hvariable (.number_times 117 hname.primary_signed))
    (.ofSigned ((Formula.Derives.number 10).raise_number 30))

theorem run_readInputs_sunk :
    (readInputs Engine.exact "Q" "100 - Q" "Q^3/3 - 10*Q^2 + 117*Q + 10^30").run.run =
      .ok (⟨"100 - Q", sunkDemand⟩, ⟨"Q^3/3 - 10*Q^2 + 117*Q + 10^30", sunkCost⟩) :=
  run_readInputs_eq_ok_iff.2 ⟨run_read_eq_ok_iff.2 ⟨.inr (by cbv), readIn_sunkDemand, rfl⟩,
    run_read_eq_ok_iff.2 ⟨.inl rfl, readIn_sunkCost, rfl⟩⟩

/-- The higher profit at 17 has the approximation of the one at 1. -/
theorem max_profit_up_to_rounding_sunk : ∃ r v,
    (equilibriumOfInputs Engine.exact {rule := .maxProfit} ⟨"100 - Q", sunkDemand⟩
      ⟨"Q^3/3 - 10*Q^2 + 117*Q + 10^30", sunkCost⟩).run.run = .ok r ∧
    ProfitAt sunkModel (.const 17) v ∧ (v.approx == r.profit.approx) = true := by
  have hrun := run_sunkModel .maxProfit "100 - Q" "Q^3/3 - 10*Q^2 + 117*Q + 10^30"
  obtain ⟨model, before, root, after, hmodel, hsolve, -, -, -, -, hrounded⟩ :=
    max_profit_up_to_rounding rfl hrun
  obtain rfl := Except.ok.inj ((run_ofInputs _ _ _).symm.trans hmodel)
  have hroots := Except.ok.inj (solve_sunkModel.symm.trans hsolve)
  exact ⟨_, _, hrun, profitAt_seventeen, hrounded (.const 17) (hroots ▸ by simp) _
    profitAt_seventeen _ _ rfl rfl (by norm_num)⟩

/-- The solution 1 is chosen, although the profit at the solution 17 is higher. -/
theorem higher_profit_is_missed : ∃ demand cost r model v a b,
    (readInputs Engine.exact "Q" "100 - Q" "Q^3/3 - 10*Q^2 + 117*Q + 10^30").run.run =
      .ok (demand, cost) ∧
    (equilibriumOfInputs Engine.exact {rule := .maxProfit} demand cost).run.run = .ok r ∧
    (Model.ofInputs Engine.exact demand cost "Q").run.run = .ok model ∧
    solve model.marginalRevenue model.marginalCost "Q" = .ok [.const 1, .const 17] ∧
    r.quantity.exact = .const 1 ∧ r.profit.exact = .const a ∧
    ProfitAt model (.const 17) v ∧ v.exact = .const b ∧ a < b :=
  ⟨_, _, _, _, _, _, _, run_readInputs_sunk, run_sunkModel _ _ _, run_ofInputs _ _ _,
    solve_sunkModel, rfl, rfl, profitAt_seventeen, rfl, by norm_num⟩

end MarketAlgebra.Market
