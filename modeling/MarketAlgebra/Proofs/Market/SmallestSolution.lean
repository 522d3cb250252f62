import MarketAlgebra.Proofs.Market.Selection
import MarketAlgebra.Proofs.Roots.Ascending
import MarketAlgebra.Proofs.Roots.LowDegree

/-!
# The smallest solution that is not negative

The default rule takes the first solution that is not negative, where the solutions are in the order
of their approximations and a surd has the sign of its approximation.  Where the approximations are
good enough for both (`Resolved`), this is the smallest root of the reduced numerator that is not
negative, and there is no such root when no solution is accepted (`smallest_solution`).  A linear
numerator is always resolved.
-/

namespace MarketAlgebra.Market

variable {p : Poly} {e : Expr} {v : Scalar}

/-! ## Resolved roots -/

/-- The approximations of the listed roots tell their signs and their order. -/
structure Resolved (p : Poly) : Prop where
  sign : ∀ e ∈ Roots.listed p, ∀ v, Scalar.ofExpr e = .ok v → (v.isNegative = true ↔ e.value < 0)
  order : ∀ d ∈ Roots.listed p, ∀ e ∈ Roots.listed p, ∀ u v, Scalar.ofExpr d = .ok u →
    Scalar.ofExpr e = .ok v → d.value < e.value → Binary64.notAfter v.approx u.approx = false

/-- The sign of a rational value is exact. -/
theorem isNegative_const_iff {a : Rat} (h : Scalar.ofExpr (.const a) = .ok v) :
    v.isNegative = true ↔ (Expr.const a).value < 0 := by
  have hexact : v.exact = .const a := (ofExpr_eq_ok_iff.1 h).1.trans (simplify_const a)
  simp [Scalar.isNegative, hexact, Expr.constant?]

/-- Rational roots with different approximations are resolved. -/
theorem Resolved.of_rational (hconst : ∀ e ∈ Roots.listed p, ∃ a, e = .const a)
    (hapart : ∀ a b, .const a ∈ Roots.listed p → .const b ∈ Roots.listed p → a < b →
      Binary64.notAfter (Binary64.ofRat b) (Binary64.ofRat a) = false) : Resolved p where
  sign e he v hv := by
    obtain ⟨a, rfl⟩ := hconst e he
    exact isNegative_const_iff hv
  order d hd e he u v hu hv hlt := by
    obtain ⟨a, rfl⟩ := hconst d hd
    obtain ⟨b, rfl⟩ := hconst e he
    rw [approx_of_exact_eq_const hu ((ofExpr_eq_ok_iff.1 hu).1.trans (simplify_const a)),
      approx_of_exact_eq_const hv ((ofExpr_eq_ok_iff.1 hv).1.trans (simplify_const b))]
    exact hapart a b hd he (by simpa using hlt)

/-- The only root of a linear polynomial is resolved. -/
theorem Resolved.of_size_le (hp : p.toPolynomial ≠ 0) (h : p.size ≤ 2) : Resolved p := by
  refine .of_rational (fun e he => Roots.exists_const_of_mem_listed hp h he) ?_
  intro a b ha hb hlt
  have hcard : p.realRoots.card ≤ 1 := by
    refine (Multiset.toFinset_card_le _).trans ((Polynomial.card_roots' _).trans ?_)
    rw [Poly.real, Polynomial.natDegree_map]
    have hsize := Poly.size_eq hp
    omega
  have hroot : ∀ a : Rat, .const a ∈ Roots.listed p → (a : ℝ) ∈ p.realRoots := fun a ha =>
    (Poly.mem_realRoots hp).2 ((Roots.exists_mem_listed_iff hp (by omega)).1 ⟨_, ha, rfl⟩)
  have hsame := Finset.card_le_one.1 hcard _ (hroot a ha) _ (hroot b hb)
  exact absurd (Rat.cast_injective hsame) hlt.ne

/-! ## Candidates -/

section

variable {left right : Expr} {x : String} {f : RationalFunction} {cs : List Candidate}
  {c : Candidate} (hsolve : solve left right x = .ok (cs.map (·.1)))
  (hf : RationalFunction.ofExpr? x (simplify (.sub left right)) = some f)
  (hne : f.numer.toPolynomial ≠ 0) (hvalues : ∀ c ∈ cs, Scalar.ofExpr c.1 = .ok c.2)

include hsolve hvalues

/-- A candidate and its quantity have the same expression and the same approximation. -/
theorem evaluate_of_mem (hc : c ∈ cs) : c.2.exact = c.1 ∧ c.1.evaluate = .ok c.2.approx := by
  have hsimple := (written_of_mem_solve hsolve (List.mem_map_of_mem hc)).simplify
  obtain ⟨hexact, heval⟩ := ofExpr_eq_ok_iff.1 (hvalues c hc)
  rw [hsimple] at hexact heval
  exact ⟨hexact, heval⟩

include hf hne

omit hvalues in
theorem mem_listed_of_mem (hc : c ∈ cs) : c.1 ∈ Roots.listed f.numer :=
  ((mem_solve_iff hsolve hf hne).1 (List.mem_map_of_mem hc)).1

variable (hresolved : Resolved f.numer)

include hresolved

theorem isNegative_iff_of_mem (hc : c ∈ cs) : c.2.isNegative = true ↔ c.1.value < 0 :=
  hresolved.sign c.1 (mem_listed_of_mem hsolve hf hne hc) c.2 (hvalues c hc)

/-- The candidates come in the order of their values. -/
theorem pairwise_value : cs.Pairwise fun c d => c.1.value ≤ d.1.value := by
  refine (List.pairwise_map.1 (pairwise_solve hsolve hf hne)).imp_of_mem
    fun {c d} hc hd hsorted => ?_
  by_contra hlt
  have hlate := hresolved.order d.1 (mem_listed_of_mem hsolve hf hne hd) c.1
    (mem_listed_of_mem hsolve hf hne hc) d.2 c.2 (hvalues d hd) (hvalues c hc)
    (not_le.1 hlt)
  have hearly := hsorted c.2.approx d.2.approx (evaluate_of_mem hsolve hvalues hc).2
    (evaluate_of_mem hsolve hvalues hd).2
  exact Bool.false_ne_true (hlate.symm.trans hearly)

variable (hsize : f.numer.size ≤ 3)

include hsize

/-- The first candidate that is not negative is the smallest root that is not negative. -/
theorem smallest_of_find (hfind : cs.find? (fun c => !c.2.isNegative) = some c) :
    f.numer.real.eval c.1.value = 0 ∧ 0 ≤ c.1.value ∧
      ∀ b, 0 ≤ b → b < c.1.value → f.numer.real.eval b ≠ 0 := by
  have hmem := List.mem_of_find?_eq_some hfind
  obtain ⟨hsign, before, after, rfl, hbefore⟩ := List.find?_eq_some_iff_append.1 hfind
  have hnegative := fun {d} => isNegative_iff_of_mem (c := d) hsolve hf hne hvalues hresolved
  have hsorted := pairwise_value hsolve hf hne hvalues hresolved
  refine ⟨(exists_mem_solve_iff hsolve hf hne hsize).1 ⟨c.1, List.mem_map_of_mem hmem, rfl⟩, ?_,
    fun b hb hlt hroot => ?_⟩
  · by_contra hneg
    simp [(hnegative hmem).2 (not_le.1 hneg)] at hsign
  · obtain ⟨_, he, rfl⟩ := (exists_mem_solve_iff hsolve hf hne hsize).2 hroot
    obtain ⟨d, hd, rfl⟩ := List.mem_map.1 he
    rcases List.mem_append.1 hd with hd' | hd'
    · exact hb.not_gt ((hnegative hd).1 (by simpa using hbefore d hd'))
    · rcases List.mem_cons.1 hd' with rfl | hd'
      · exact hlt.false
      · exact hlt.not_ge ((List.pairwise_cons.1 (List.pairwise_append.1 hsorted).2.1).1 d hd')

/-- If all candidates are negative, then so are all roots. -/
theorem negative_of_find (hfind : cs.find? (fun c => !c.2.isNegative) = none) {b : ℝ}
    (hroot : f.numer.real.eval b = 0) : b < 0 := by
  obtain ⟨_, he, rfl⟩ := (exists_mem_solve_iff hsolve hf hne hsize).2 hroot
  obtain ⟨d, hd, rfl⟩ := List.mem_map.1 he
  exact (isNegative_iff_of_mem hsolve hf hne hvalues hresolved hd).1
    (by simpa using List.find?_eq_none.1 hfind d hd)

end

/-! ## The default rule -/

/-- The default rule finds the smallest root of the reduced numerator that is not negative, and it
finds none only when there is none: for a linear numerator, and for a quadratic one with
resolved roots. -/
theorem smallest_solution {settings : Settings} {demand cost : Input} {model : Model}
    {f : RationalFunction} (hrule : settings.rule = .smallestNonNegative)
    (hmodel : (Model.ofInputs Engine.exact demand cost settings.symbol).run.run = .ok model)
    (hf : RationalFunction.ofExpr? settings.symbol
      (simplify (.sub model.marginalRevenue model.marginalCost)) = some f)
    (hsize : f.numer.size = 2 ∨ f.numer.size = 3 ∧ Resolved f.numer) :
    (∀ r, (equilibriumOfInputs Engine.exact settings demand cost).run.run = .ok r →
      f.numer.real.eval r.quantity.exact.value = 0 ∧ 0 ≤ r.quantity.exact.value ∧
      ∀ b, 0 ≤ b → b < r.quantity.exact.value → f.numer.real.eval b ≠ 0) ∧
    ∀ why, (equilibriumOfInputs Engine.exact settings demand cost).run.run =
      .error (.noEquilibrium why) → ∀ b, f.numer.real.eval b = 0 → b < 0 := by
  obtain rfl := Except.ok.inj ((run_ofInputs demand cost settings.symbol).symm.trans hmodel)
  have hne : f.numer.toPolynomial ≠ 0 := by
    rw [Ne, ← Poly.size_eq_zero]
    omega
  have hresolved : Resolved f.numer := by
    rcases hsize with hlinear | ⟨-, hresolved⟩
    · exact .of_size_le hne hlinear.le
    · exact hresolved
  have hsize : f.numer.size ≤ 3 := by omega
  constructor
  · intro r h
    obtain ⟨cs, c, hsolve, hvalues, hchoose, hr⟩ := run_equilibriumOfInputs_eq_ok_iff.1 h
    have hmem := mem_of_choose hchoose
    have hquantity : r.quantity = c.2 :=
      Except.ok.inj (hr.quantity.symm.trans (hvalues c hmem))
    rw [hrule] at hchoose
    rw [hquantity, (evaluate_of_mem hsolve hvalues hmem).1]
    exact smallest_of_find hsolve hf hne hvalues hresolved hsize (run_pure_eq_ok_iff.1 hchoose)
  · intro why h b hb
    obtain ⟨cs, hsolve, hvalues, hchoose⟩ := of_noEquilibrium h
    rw [hrule] at hchoose
    exact negative_of_find hsolve hf hne hvalues hresolved hsize (run_pure_eq_ok_iff.1 hchoose) hb

theorem resolved_sunkNumerator : Resolved sunkNumerator := by
  have hne : sunkNumerator.toPolynomial ≠ 0 := mt Poly.isZero_iff.2 (Bool.eq_false_iff.1 (by cbv))
  have hlisted : ∀ e ∈ Roots.listed sunkNumerator, e = .const 1 ∨ e = .const 17 := by
    intro e he
    rwa [← Roots.mem_realRoots hne, realRoots_sunkNumerator, List.mem_pair] at he
  have hroot : ∀ a, .const a ∈ Roots.listed sunkNumerator → a = 1 ∨ a = 17 := fun a ha =>
    (hlisted _ ha).imp Expr.const.inj Expr.const.inj
  refine .of_rational (fun e he => (hlisted e he).elim (⟨1, ·⟩) (⟨17, ·⟩)) fun a b ha hb hlt => ?_
  rcases hroot a ha with rfl | rfl <;> rcases hroot b hb with rfl | rfl
  · exact absurd hlt (lt_irrefl 1)
  · rfl
  · norm_num at hlt
  · exact absurd hlt (lt_irrefl 17)

/-- The solution 1 is the smallest one. -/
theorem smallest_solution_sunk : ∃ r,
    (equilibriumOfInputs Engine.exact {} ⟨"100 - Q", sunkDemand⟩
      ⟨"Q^3/3 - 10*Q^2 + 117*Q + 10^30", sunkCost⟩).run.run = .ok r ∧
    sunkNumerator.real.eval r.quantity.exact.value = 0 ∧ 0 ≤ r.quantity.exact.value ∧
    ∀ b, 0 ≤ b → b < r.quantity.exact.value → sunkNumerator.real.eval b ≠ 0 := by
  have hrun := run_sunkModel .smallestNonNegative "100 - Q" "Q^3/3 - 10*Q^2 + 117*Q + 10^30"
  exact ⟨_, hrun, (smallest_solution rfl (run_ofInputs _ _ _) ofExpr?_sunkModel
    (.inr ⟨by cbv, resolved_sunkNumerator⟩)).1 _ hrun⟩

/-! ## A surd that cancels -/

/-- The cost `Q^3/3 + 9863382150*Q^2 + 101*Q`. -/
def steepCost : Expr :=
  .add (.add (.div (.pow (.var "Q") (.const 3)) (.const 3))
    (.mul (.const 9863382150) (.pow (.var "Q") (.const 2)))) (.mul (.const 101) (.var "Q"))

/-- The market of this cost and the demand `100 - Q`. -/
def steepModel : Model := modelOf sunkDemand steepCost "Q"

/-- The marginal cost `19726764300*Q + Q^2 + 101`. -/
def steepMarginalCost : Expr :=
  .add (.add (.mul (.const 19726764300) (.var "Q")) (.pow (.var "Q") (.const 2))) (.const 101)

/-- The difference of marginal revenue and marginal cost. -/
def steepNumerator : Poly := .const (-19726764302) * .x + -Poly.pow .x 2 + .const (-1)

theorem marginalCost_steepModel : steepModel.marginalCost = steepMarginalCost := by
  have hderivative : derivative "Q" steepCost = steepMarginalCost := by
    simp only [steepCost, derivative, Derivative.productRule, Derivative.powerRule,
      simplifyOnce_eq_step]
    cbv
  have hstep : Simplify.step steepMarginalCost = steepMarginalCost := by cbv
  rw [steepModel, modelOf, hderivative, simplify_eq_of_step hstep hstep]

theorem ofExpr?_steepModel : RationalFunction.ofExpr? "Q"
    (simplify (.sub steepModel.marginalRevenue steepModel.marginalCost)) =
      some (.ofPoly steepNumerator) := by
  have hdifference : simplify (.sub sunkMarginalRevenue steepMarginalCost) =
      .add (.add (.mul (.const (-19726764302)) (.var "Q")) (.neg (.pow (.var "Q") (.const 2))))
        (.const (-1)) :=
    simplify_eq_of_step (by cbv) (by cbv)
  have hrevenue : steepModel.marginalRevenue = sunkMarginalRevenue := marginalRevenue_sunkModel
  rw [hrevenue, marginalCost_steepModel, hdifference]
  exact RationalFunction.ofExpr?_eq_ofPoly (by decide +kernel)

/-- The root `offset * sqrt 3 - 9863382151`. -/
def steepRoot (offset : Rat) : Expr :=
  .add (.mul (.const offset) (.sqrt (.const 3))) (.const (-9863382151))

/-- The value of the root in floats. -/
def steepValue (offset : Rat) : Float :=
  Binary64.ofRat offset * (Binary64.ofRat 3).sqrt + Binary64.ofRat (-9863382151)

/-- The root as a scalar. -/
def steepScalar (offset : Rat) : Scalar := ⟨steepRoot offset, steepValue offset⟩

theorem value_steepRoot (offset : Rat) :
    (steepRoot offset).value = offset * Real.sqrt 3 - 9863382151 := by
  simp [steepRoot, Expr.value, Expr.real, Expr.sqrt, Real.sqrt_eq_rpow, sub_eq_add_neg]

theorem surdRoot_eq_steepRoot {offset : Rat}
    (h : offset = 5694626340 ∨ offset = -5694626340) :
    (Roots.surdRoot (-9863382151) offset 3).1 = steepRoot offset := by
  dsimp only [Roots.surdRoot]
  refine simplify_eq_of_step ?_ ?_
  · rcases h with rfl | rfl <;> cbv
  · rcases h with rfl | rfl <;> cbv

theorem realRoots_steepNumerator :
    Roots.realRoots steepNumerator = [steepRoot (-5694626340), steepRoot 5694626340] := by
  have hsize : ¬steepNumerator.squareFreePart.size ≤ 1 := by decide +kernel
  have hpart : steepNumerator.squareFreePart = Roots.surdSquare 19726764302 1 := by decide +kernel
  have hrational : Roots.rationalRoots steepNumerator.squareFreePart = [] := by decide +kernel
  have hremaining : Roots.remainingRoots steepNumerator.squareFreePart =
      [Roots.surdRoot (-9863382151) (-5694626340) 3,
        Roots.surdRoot (-9863382151) 5694626340 3] := by
    have hdegree : steepNumerator.squareFreePart.size = 3 := by decide +kernel
    rw [Roots.remainingRoots, hdegree, hpart]
    exact Roots.quadraticRoots_of_surd 389145229826661547200 (-9863382151) 5694626340
      ⟨11389252680, 3⟩ (by decide +kernel) (by norm_num) (by decide +kernel)
      (by decide +kernel) (by decide +kernel) (by decide)
  have hsorted : [Roots.surdRoot (-9863382151) (-5694626340) 3,
      Roots.surdRoot (-9863382151) 5694626340 3].Pairwise fun r s =>
        Binary64.notAfter r.2 s.2 := List.pairwise_pair.2 (by decide +kernel)
  simp only [Roots.realRoots, if_neg hsize, hrational, List.foldl_nil, hremaining, List.map_nil,
    List.nil_append]
  rw [List.mergeSort_of_pairwise hsorted]
  simp only [List.map_cons, List.map_nil, surdRoot_eq_steepRoot (.inl rfl),
    surdRoot_eq_steepRoot (.inr rfl)]
  rfl

theorem readIn_steepCost :
    Formula.readIn "Q^3/3 + 9863382150*Q^2 + 101*Q" "Q" = .ok steepCost := by
  have hname := Formula.Derives.name "Q"
  refine Formula.readIn_eq_ok_iff.2 ⟨Formula.parse?_eq_some_iff.2 ⟨_, by cbv, ?_⟩, by decide⟩
  have hsteep := Formula.Derives.plus (.ofProduct derives_thirdOfCube)
    (.number_times 9863382150 (hname.raise_number 2))
  exact .plus hsteep (.number_times 101 hname.primary_signed)

theorem run_readInputs_steep :
    (readInputs Engine.exact "Q" "100 - Q" "Q^3/3 + 9863382150*Q^2 + 101*Q").run.run =
      .ok (⟨"100 - Q", sunkDemand⟩, ⟨"Q^3/3 + 9863382150*Q^2 + 101*Q", steepCost⟩) :=
  run_readInputs_eq_ok_iff.2 ⟨run_read_eq_ok_iff.2 ⟨.inr (by cbv), readIn_sunkDemand, rfl⟩,
    run_read_eq_ok_iff.2 ⟨.inl rfl, readIn_steepCost, rfl⟩⟩

section

variable (hpow : Float.pow (Binary64.ofRat 3) (Binary64.ofRat (1 / 2)) = (Binary64.ofRat 3).sqrt)

include hpow

/-- Where the power of three with the exponent one half is the square root of floats, the roots have
these values in floats. -/
theorem evaluate_steepRoot {offset : Rat} (h : offset = 5694626340 ∨ offset = -5694626340) :
    (steepRoot offset).evaluate = .ok (steepValue offset) := by
  have hconst {v : Rat} (hv : |v| ≤ 10 ^ 250) : (Expr.const v).evaluate = .ok (Binary64.ofRat v) :=
    evaluate_const (abs_le_of_le_ten_pow hv)
  have hsqrt : (Expr.sqrt (.const 3)).evaluate = .ok (Binary64.ofRat 3).sqrt := by
    rw [Expr.sqrt, Expr.evaluate, Expr.evalIn]
    refine bind_eq_ok_iff.2 ⟨_, hconst (by norm_num), ?_⟩
    refine bind_eq_ok_iff.2 ⟨_, hconst (by norm_num [abs_le]), ?_⟩
    rw [hpow]
    exact if_pos (by decide +kernel)
  have hproduct : (Expr.mul (.const offset) (.sqrt (.const 3))).evaluate =
      .ok (Binary64.ofRat offset * (Binary64.ofRat 3).sqrt) := by
    rw [Expr.evaluate, Expr.evalIn]
    refine bind_eq_ok_iff.2 ⟨_, hconst ?_, bind_eq_ok_iff.2 ⟨_, hsqrt, if_pos ?_⟩⟩
    · rcases h with rfl | rfl <;> norm_num
    · rcases h with rfl | rfl <;> decide +kernel
  rw [steepRoot, Expr.evaluate, Expr.evalIn]
  refine bind_eq_ok_iff.2 ⟨_, hproduct, bind_eq_ok_iff.2 ⟨_, hconst (by norm_num), if_pos ?_⟩⟩
  rcases h with rfl | rfl <;> decide +kernel

theorem solve_steepModel : solve steepModel.marginalRevenue steepModel.marginalCost "Q" =
    .ok [steepRoot (-5694626340), steepRoot 5694626340] := by
  refine solve_eq_of_values [(steepRoot (-5694626340), steepValue (-5694626340)),
    (steepRoot 5694626340, steepValue 5694626340)] ofExpr?_steepModel (by decide +kernel)
    realRoots_steepNumerator ?_ ?_ (List.pairwise_pair.2 (by decide +kernel)) (by decide)
  · decide
  · simp only [List.forall_mem_cons]
    exact ⟨evaluate_steepRoot hpow (.inr rfl), evaluate_steepRoot hpow (.inl rfl), nofun⟩

theorem ofExpr_steepRoot {offset : Rat} (h : offset = 5694626340 ∨ offset = -5694626340) :
    Scalar.ofExpr (steepRoot offset) = .ok (steepScalar offset) := by
  have hsimple : simplify (steepRoot offset) = steepRoot offset := by
    rw [← surdRoot_eq_steepRoot h]
    exact Roots.simplify_surdRoot _ _ _
  refine ofExpr_eq_ok_iff.2 ⟨hsimple.symm, ?_⟩
  rw [hsimple]
  exact evaluate_steepRoot hpow h

/-- The larger root is negative, but its value in floats is zero, so it is selected. -/
theorem negative_surd_is_selected : ∃ demand cost model solutions root quantity,
    (readInputs Engine.exact "Q" "100 - Q" "Q^3/3 + 9863382150*Q^2 + 101*Q").run.run =
      .ok (demand, cost) ∧
    (Model.ofInputs Engine.exact demand cost "Q").run.run = .ok model ∧
    solve model.marginalRevenue model.marginalCost "Q" = .ok solutions ∧
    (select Engine.exact .smallestNonNegative model solutions).run.run = .ok (root, quantity) ∧
    quantity.exact = root ∧ root.value < 0 := by
  have hcandidates : ∀ c ∈ [(steepRoot (-5694626340), steepScalar (-5694626340)),
      (steepRoot 5694626340, steepScalar 5694626340)], Scalar.ofExpr c.1 = .ok c.2 := by
    simp only [List.forall_mem_cons]
    exact ⟨ofExpr_steepRoot hpow (.inr rfl), ofExpr_steepRoot hpow (.inl rfl), nofun⟩
  have hnegative : (steepRoot 5694626340).value < 0 := by
    have hsqrt : Real.sqrt 3 < 9863382151 / 5694626340 := by
      rw [Real.sqrt_lt' (by norm_num)]
      norm_num
    rw [value_steepRoot]
    push_cast
    linarith
  have hchoose : (choose Engine.exact .smallestNonNegative steepModel
      [(steepRoot (-5694626340), steepScalar (-5694626340)),
        (steepRoot 5694626340, steepScalar 5694626340)]).run.run =
      .ok (some (steepRoot 5694626340, steepScalar 5694626340)) := by decide +kernel
  exact ⟨_, _, _, _, _, _, run_readInputs_steep, run_ofInputs _ _ _, solve_steepModel hpow,
    run_select_eq_ok_iff.2 ⟨_, rfl, hcandidates, hchoose⟩, rfl, hnegative⟩

end

end MarketAlgebra.Market
