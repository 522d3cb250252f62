import Mathlib.Analysis.Calculus.Deriv.Polynomial
import Mathlib.Order.Filter.Cofinite
import Mathlib.Topology.Algebra.Module.ModuleTopology
import MarketAlgebra.Proofs.RationalFunction

/-!
# Values of rational functions

The value of a rational function is the quotient of the values of its parts (`value`).  It agrees
with the value of an expression that expands to the function, as long as the degrees on the way are
words, but not everywhere: `Q / Q` has no value at zero and expands to the polynomial one.  All
statements here hold at all points but finitely many, which is enough to tell rational functions
apart (`Lowest.eq_reduce_of_value_eq`).
-/

namespace MarketAlgebra.RationalFunction

open Filter MarketAlgebra.Expr Polynomial Topology

/-- A polynomial that is not zero vanishes at finitely many points only. -/
theorem eventually_eval_ne_zero {F : ℝ[X]} (hF : F ≠ 0) : ∀ᶠ t in cofinite, F.eval t ≠ 0 := by
  filter_upwards [(F.finite_setOfPred_isRoot hF).compl_mem_cofinite] with t ht
  exact ht

/-- What holds at all points but finitely many also holds around all points but finitely many. -/
theorem eventually_eventually_nhds {p : ℝ → Prop} (h : ∀ᶠ t in cofinite, p t) :
    ∀ᶠ t in cofinite, ∀ᶠ u in 𝓝 t, p u := by
  have hopen : IsOpen {t | p t} := by
    rw [← isClosed_compl_iff]
    exact (mem_cofinite.1 h).isClosed
  filter_upwards [h] with t ht
  exact hopen.mem_nhds ht

/-- The value at a point. -/
noncomputable def value (f : RationalFunction) (t : ℝ) : ℝ :=
  f.numer.real.eval t / f.denom.real.eval t

variable {f g : RationalFunction} {t : ℝ} {x : String} {e : Expr}

theorem eventually_denom_ne_zero (h : f.denom.toPolynomial ≠ 0) :
    ∀ᶠ t in cofinite, f.denom.real.eval t ≠ 0 :=
  eventually_eval_ne_zero (mt Poly.real_eq_zero_iff.1 h)

theorem eventually_numer_ne_zero (h : f.numer.toPolynomial ≠ 0) :
    ∀ᶠ t in cofinite, f.numer.real.eval t ≠ 0 :=
  eventually_eval_ne_zero (mt Poly.real_eq_zero_iff.1 h)

theorem value_eq_zero (h : f.numer.toPolynomial = 0) : f.value t = 0 := by
  rw [value, Poly.real_eq_zero_iff.2 h, eval_zero, zero_div]

/-- A function that is not zero vanishes at finitely many points only. -/
theorem Lowest.eventually_value_ne_zero (hf : f.Lowest) (h : f.numer.toPolynomial ≠ 0) :
    ∀ᶠ t in cofinite, f.value t ≠ 0 := by
  filter_upwards [eventually_numer_ne_zero h, eventually_denom_ne_zero hf.denom_ne_zero]
    with t ht ht'
  exact div_ne_zero ht ht'

/-! ## Arithmetic -/

theorem value_ofPoly (p : Poly) (t : ℝ) : (ofPoly p).value t = p.real.eval t := by
  have hone : Poly.one.real = 1 := by rw [Poly.real, Poly.toPolynomial_one, Polynomial.map_one]
  rw [value, ofPoly, hone, eval_one, div_one]

theorem value_add (h : Exact f g) (hf : f.denom.real.eval t ≠ 0) (hg : g.denom.real.eval t ≠ 0) :
    (f.add g).value t = f.value t + g.value t := by
  simp only [value, RationalFunction.add, Poly.real_add, Poly.real_mul h.numer_denom,
    Poly.real_mul h.denom_numer, Poly.real_mul h.denom_denom, eval_add, eval_mul]
  field_simp

theorem value_sub (h : Exact f g) (hf : f.denom.real.eval t ≠ 0) (hg : g.denom.real.eval t ≠ 0) :
    (f.sub g).value t = f.value t - g.value t := by
  simp only [value, RationalFunction.sub, Poly.real_sub, Poly.real_mul h.numer_denom,
    Poly.real_mul h.denom_numer, Poly.real_mul h.denom_denom, eval_sub, eval_mul]
  field_simp

theorem value_mul (h : Exact f g) (t : ℝ) : (f.mul g).value t = f.value t * g.value t := by
  simp only [value, RationalFunction.mul, Poly.real_mul h.numer_numer,
    Poly.real_mul h.denom_denom, eval_mul, div_mul_div_comm]

theorem value_neg (f : RationalFunction) (t : ℝ) : f.neg.value t = -f.value t := by
  simp only [value, RationalFunction.neg, Poly.real_neg, eval_neg, neg_div]

theorem value_swap (f : RationalFunction) (t : ℝ) : f.swap.value t = (f.value t)⁻¹ := by
  simp only [value, swap, inv_div]

theorem value_zpow {k : ℤ} (h : ExactPower f k.natAbs) (t : ℝ) :
    (f.zpow k).value t = f.value t ^ k := by
  have hpow {g : RationalFunction} {n : ℕ} (h : ExactPower g n) :
      (g.pow n).value t = g.value t ^ n := by
    simp only [value, RationalFunction.pow, Poly.real_pow h.numer, Poly.real_pow h.denom,
      eval_pow, div_pow]
  rw [zpow]
  split
  case isTrue hk => rw [hpow h, ← zpow_natCast, Int.natAbs_of_nonneg hk]
  case isFalse hk =>
    rw [hpow h.swap, value_swap, inv_pow, ← zpow_natCast,
      Int.ofNat_natAbs_of_nonpos (not_le.1 hk).le, ← zpow_neg, neg_neg]

/-- Reduction keeps the values. -/
theorem eventually_value_reduce (h : f.denom.toPolynomial ≠ 0) :
    ∀ᶠ t in cofinite, f.reduce.value t = f.value t := by
  obtain ⟨hlowest, hreduce⟩ := reduce_spec (proper_of_denom_ne_zero h)
  filter_upwards [eventually_denom_ne_zero h, eventually_denom_ne_zero hlowest.denom_ne_zero]
    with t ht ht'
  have hreal := congrArg (fun F => (F.map (algebraMap ℚ ℝ)).eval t) hreduce
  simp only [Polynomial.map_mul, eval_mul] at hreal
  exact (div_eq_div_iff ht' ht).2 hreal

/-- A function that has the values of a quotient of polynomials is this quotient. -/
theorem mul_eq_of_value_eq {n d : ℚ[X]} (hf : f.denom.toPolynomial ≠ 0) (hd : d ≠ 0)
    (h : ∀ᶠ t in cofinite, f.value t =
      (n.map (algebraMap ℚ ℝ)).eval t / (d.map (algebraMap ℚ ℝ)).eval t) :
    f.numer.toPolynomial * d = n * f.denom.toPolynomial := by
  refine map_injective _ (algebraMap ℚ ℝ).injective ?_
  rw [Polynomial.map_mul, Polynomial.map_mul]
  refine eq_of_infinite_eval_eq _ _ (frequently_cofinite_iff_infinite.1 (Eventually.frequently ?_))
  have hdreal : d.map (algebraMap ℚ ℝ) ≠ 0 :=
    (Polynomial.map_ne_zero_iff (algebraMap ℚ ℝ).injective).2 hd
  filter_upwards [h, eventually_denom_ne_zero hf, eventually_eval_ne_zero hdreal] with t ht hft hdt
  rw [eval_mul, eval_mul]
  exact (div_eq_div_iff hft hdt).1 ht

/-- In lowest terms, a function with the values of another one is its reduction. -/
theorem Lowest.eq_reduce_of_value_eq (hf : f.Lowest) (hg : g.denom.toPolynomial ≠ 0)
    (h : ∀ᶠ t in cofinite, f.value t = g.value t) : f = g.reduce :=
  hf.eq_reduce hg (mul_eq_of_value_eq hf.denom_ne_zero hg h)

/-! ## Expressions -/

/-- While the degrees are words, an expression has the values of the function that it expands to. -/
theorem Expands.eventually_hasValue (h : Expands x e f) (hlt : e.degreeBound < Poly.wordSize)
    (s : String → ℝ) :
    ∀ᶠ t in cofinite, e.HasValue (Function.update s x t) (f.value t) := by
  induction h with
  | var =>
    refine .of_forall fun t => ⟨trivial, ?_⟩
    rw [value_ofPoly, Poly.real_x, eval_X]
    exact Function.update_self x t s
  | const c =>
    refine .of_forall fun t => ⟨trivial, ?_⟩
    rw [value_ofPoly, Poly.real_const, eval_C]
    rfl
  | @add a b f g ha hb _ iha ihb =>
    rw [degreeBound] at hlt
    filter_upwards [iha (by omega), ihb (by omega),
      eventually_denom_ne_zero ha.lowest.denom_ne_zero,
      eventually_denom_ne_zero hb.lowest.denom_ne_zero,
      eventually_value_reduce (f := f.add g) (ha.denom_mul_ne_zero hb hlt)] with t va vb hft hgt hr
    rw [hr, value_add (ha.exact hb hlt).1 hft hgt, ← va.2, ← vb.2]
    exact ⟨⟨va.1, vb.1⟩, rfl⟩
  | @sub a b f g ha hb _ iha ihb =>
    rw [degreeBound] at hlt
    filter_upwards [iha (by omega), ihb (by omega),
      eventually_denom_ne_zero ha.lowest.denom_ne_zero,
      eventually_denom_ne_zero hb.lowest.denom_ne_zero,
      eventually_value_reduce (f := f.sub g) (ha.denom_mul_ne_zero hb hlt)] with t va vb hft hgt hr
    rw [hr, value_sub (ha.exact hb hlt).1 hft hgt, ← va.2, ← vb.2]
    exact ⟨⟨va.1, vb.1⟩, rfl⟩
  | @mul a b f g ha hb _ iha ihb =>
    rw [degreeBound] at hlt
    filter_upwards [iha (by omega), ihb (by omega),
      eventually_value_reduce (f := f.mul g) (ha.denom_mul_ne_zero hb hlt)] with t va vb hr
    rw [hr, value_mul (ha.exact hb hlt).1, ← va.2, ← vb.2]
    exact ⟨⟨va.1, vb.1⟩, rfl⟩
  | @div a b f g ha hb hne _ iha ihb =>
    rw [degreeBound] at hlt
    have hexact := (ha.exact hb hlt).2
    have hd := hexact.denom_mul_ne_zero ha.lowest.denom_ne_zero hne
    filter_upwards [iha (by omega), ihb (by omega), eventually_value_reduce (f := f.mul g.swap) hd,
      hb.lowest.eventually_value_ne_zero hne] with t va vb hr hgt
    rw [← vb.2] at hgt
    rw [hr, value_mul hexact, value_swap, ← va.2, ← vb.2]
    exact ⟨⟨va.1, vb.1, hgt⟩, div_eq_mul_inv _ _⟩
  | @neg a f ha iha =>
    filter_upwards [iha hlt, eventually_value_reduce (f := f.neg) ha.lowest.denom_ne_zero]
      with t va hr
    rw [hr, value_neg, ← va.2]
    exact ⟨va.1, rfl⟩
  | @pow a b f k ha hk _ hne _ iha =>
    have hexact := ha.exactPower hk hlt
    have hd := hexact.denom_zpow_ne_zero ha.lowest.denom_ne_zero hne
    have hbase : ∀ᶠ t in cofinite, k < 0 → f.value t ≠ 0 := by
      by_cases hneg : k < 0
      · exact (ha.lowest.eventually_value_ne_zero (hne hneg)).mono fun t ht _ => ht
      · exact .of_forall fun t hneg' => absurd hneg' hneg
    filter_upwards [iha ((degreeBound_le_pow a b).trans_lt hlt), hbase, eventually_value_reduce hd]
      with t va hft hr
    have vb := hasValue_of_integerExponent? hk (Function.update s x t)
    rw [← va.2] at hft
    rw [hr, value_zpow hexact, ← va.2]
    refine ⟨⟨va.1, vb.1, ?_⟩, ?_⟩
    · rw [vb.2, powDefined_int_iff]
      exact hft
    · rw [real, vb.2, Real.rpow_intCast]

end MarketAlgebra.RationalFunction
