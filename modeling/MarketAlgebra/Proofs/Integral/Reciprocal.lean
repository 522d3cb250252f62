import MarketAlgebra.Proofs.Integral.Pole
import MarketAlgebra.Proofs.Market.Rational
import MarketAlgebra.Proofs.Poly.Representation
import MarketAlgebra.Proofs.Roots.LowDegree
import MarketAlgebra.Proofs.Simplify.Logarithm
import MarketAlgebra.Proofs.Substitution

/-!
# Integrals of reciprocals

The reciprocal of `k * x + c` is integrated as a power with exponent `-1`, so its antiderivative is
written as `log (k * x + c) / k` (`antiderivative_affineReciprocal`).  Where the argument is
positive between the bounds, the difference of the two logarithms is the integral.  Where it is
negative, that would be the difference of the logarithms of the absolute values, but the written
antiderivative has no value there, and the integral is reported to diverge
(`integral_of_reciprocal`).

Before that the floats of the bounds are compared, with each other and with the float of the zero of
the argument.  Bounds that agree as floats give zero, and a zero beyond a bound counts as a pole
when it rounds to a float between those of the bounds.
-/

namespace MarketAlgebra

open Binary64 DefiniteIntegral MarketAlgebra.Expr Polynomial

/-! ## Size -/

/-- The numerator and the denominator have at most a hundred digits. -/
structure HundredDigits (q : Rat) : Prop where
  num : q.num.natAbs < 10 ^ 100
  den : q.den < 10 ^ 100

instance (q : Rat) : Decidable (HundredDigits q) :=
  decidable_of_iff (q.num.natAbs < 10 ^ 100 ∧ q.den < 10 ^ 100)
    ⟨fun h => ⟨h.1, h.2⟩, fun h => ⟨h.num, h.den⟩⟩

namespace HundredDigits

variable {q r s : Rat}

theorem abs_le (h : HundredDigits q) : |q| ≤ 10 ^ 100 := by
  have hden : (1 : Rat) ≤ q.den := by exact_mod_cast q.den_pos
  have hnum : (q.num.natAbs : Rat) ≤ 10 ^ 100 := by exact_mod_cast h.num.le
  rw [← natAbs_num_div_den]
  exact (div_le_self (Nat.cast_nonneg _) hden).trans hnum

theorem abs_one_div_le (h : HundredDigits q) (hq : q ≠ 0) : |1 / q| ≤ 10 ^ 100 := by
  have hnum : (1 : Rat) ≤ q.num.natAbs := by
    exact_mod_cast Int.natAbs_pos.2 (Rat.num_ne_zero.2 hq)
  have hden : (q.den : Rat) ≤ 10 ^ 100 := by exact_mod_cast h.den.le
  rw [abs_div, abs_one, ← natAbs_num_div_den, one_div_div]
  exact (div_le_self (Nat.cast_nonneg _) hnum).trans hden

theorem isFinite (h : HundredDigits q) : (ofRat q).isFinite = true :=
  isFinite_ofRat (Market.abs_le_of_le_ten_pow (h.abs_le.trans (by norm_num)))

theorem isFinite_one_div (h : HundredDigits q) (hq : q ≠ 0) : (ofRat (1 / q)).isFinite = true :=
  isFinite_ofRat (Market.abs_le_of_le_ten_pow ((h.abs_one_div_le hq).trans (by norm_num)))

theorem isFinite_neg_one_div (h : HundredDigits q) (hq : q ≠ 0) :
    (ofRat (-(1 / q))).isFinite = true := by
  refine isFinite_ofRat (Market.abs_le_of_le_ten_pow ?_)
  rw [abs_neg]
  exact (h.abs_one_div_le hq).trans (by norm_num)

theorem isFinite_mul_add (hq : HundredDigits q) (hr : HundredDigits r) (hs : HundredDigits s) :
    (ofRat (q * r + s)).isFinite = true := by
  refine isFinite_ofRat (Market.abs_le_of_le_ten_pow ?_)
  calc |q * r + s| ≤ |q| * |r| + |s| := (abs_add_le _ _).trans_eq (by rw [abs_mul])
    _ ≤ 10 ^ 100 * 10 ^ 100 + 10 ^ 100 := by
        gcongr
        exacts [hq.abs_le, hr.abs_le, hs.abs_le]
    _ ≤ 10 ^ 250 := by norm_num

end HundredDigits

/-! ## The integrand -/

/-- The expression `k * x + c`. -/
def affineArgument (x : String) (k c : Rat) : Expr := .add (.mul (.const k) (.var x)) (.const c)

/-- The reciprocal of `k * x + c`. -/
def affineReciprocal (x : String) (k c : Rat) : Expr := .div .one (affineArgument x k c)

variable {x : String} {k c a b : Rat}

theorem ofExpr?_affineArgument (x : String) (k c : Rat) :
    Poly.ofExpr? x (affineArgument x k c) = some (.const k * .x + .const c) := by
  simp [affineArgument, Poly.ofExpr?]

theorem toPolynomial_affine (k c : Rat) :
    (Poly.const k * Poly.x + Poly.const c).toPolynomial = C k * X + C c := by
  simp

/-- The reciprocal with a monic denominator. -/
def affineReciprocalFunction (k c : Rat) : RationalFunction :=
  ⟨.const (1 / k), .x + .const (c / k)⟩

theorem lowest_affineReciprocalFunction (hk : k ≠ 0) (c : Rat) :
    (affineReciprocalFunction k c).Lowest where
  isCoprime := by
    refine ⟨C k, 0, ?_⟩
    rw [affineReciprocalFunction, Poly.toPolynomial_const, ← C_mul, mul_one_div_cancel hk, C_1,
      zero_mul, add_zero]
  monic := by
    rw [affineReciprocalFunction, Poly.toPolynomial_add, Poly.toPolynomial_x,
      Poly.toPolynomial_const]
    exact monic_X_add_C _

theorem ofExpr?_affineReciprocal (x : String) (hk : k ≠ 0) (c : Rat) :
    RationalFunction.ofExpr? x (affineReciprocal x k c) =
      some (affineReciprocalFunction k c) := by
  have harg := RationalFunction.expands_ofPoly
    (Poly.ofExpr?_eq_some_iff.1 (ofExpr?_affineArgument x k c))
  have hne : (Poly.const k * Poly.x + Poly.const c).toPolynomial ≠ 0 := by
    rw [toPolynomial_affine]
    exact Roots.linear_ne_zero hk c
  have hlt : (Expr.const 1).degreeBound + (affineArgument x k c).degreeBound < Poly.wordSize :=
    show 0 + (0 + 1 + 0) < Poly.wordSize by decide
  have hexpands := (RationalFunction.Expands.const 1).div_of_lt harg hlt hne
  rw [← (lowest_affineReciprocalFunction hk c).eq_reduce ?_ ?_] at hexpands
  · exact RationalFunction.ofExpr?_eq_some_iff.2 hexpands
  · simpa [RationalFunction.mul, RationalFunction.swap, RationalFunction.ofPoly] using hne
  · have hslope : (C (1 / k) * C k : ℚ[X]) = 1 := by rw [← C_mul, one_div_mul_cancel hk, C_1]
    have hconst : (C (1 / k) * C c : ℚ[X]) = C (c / k) := by rw [← C_mul, one_div_mul_eq_div]
    simp only [affineReciprocalFunction, RationalFunction.mul, RationalFunction.swap,
      RationalFunction.ofPoly, Poly.toPolynomial_const_mul, Poly.toPolynomial_one_mul,
      Poly.toPolynomial_add, Poly.toPolynomial_const, Poly.toPolynomial_x, Poly.toPolynomial_one,
      C_1]
    linear_combination X * hslope + hconst

/-- The only root of the denominator is that of the argument. -/
theorem realRoots_affineReciprocal (k c : Rat) :
    Roots.realRoots (affineReciprocalFunction k c).denom = [.const (-c / k)] := by
  have hroots := Roots.realRoots_of_linear (p := .x + .const (c / k)) (m := 1) (k := c / k)
    one_ne_zero (by simp)
  rwa [div_one, ← neg_div] at hroots

/-- Without a zero of the argument between the bounds there is no pole. -/
theorem poleBetween?_affineReciprocal (hk : k ≠ 0) (hab : a ≤ b)
    (hpole : ¬Between a b (.const (-c / k))) :
    poleBetween? (affineReciprocal x k c) x (ofRat a) (ofRat b) = .ok none := by
  have hroots :=
    exists_rootBetween?_iff (p := (affineReciprocalFunction k c).denom) (a := a) (b := b)
  rw [realRoots_affineReciprocal k c] at hroots
  rw [poleBetween?_eq (ofExpr?_affineReciprocal x hk c) hab]
  cases hfound : rootBetween? (affineReciprocalFunction k c).denom (ofRat a) (ofRat b) with
  | none => rfl
  | some point =>
    obtain ⟨d, hd, hbetween⟩ := hroots.1 ⟨point, hfound⟩
    obtain rfl := List.mem_singleton.1 hd
    exact absurd hbetween hpole

theorem degree?_affine (hk : k ≠ 0) (c : Rat) :
    (Poly.const k * Poly.x + Poly.const c).degree? = some 1 := by
  rw [Poly.degree?_eq, toPolynomial_affine, if_neg (Roots.linear_ne_zero hk c), natDegree_linear hk]

theorem slope?_affineArgument (x : String) (hk : k ≠ 0) (c : Rat) :
    Antiderivative.slope? x (affineArgument x k c) = some k := by
  rw [Antiderivative.slope?, ofExpr?_affineArgument]
  simp [degree?_affine hk, Poly.coeff_eq]

/-- The reciprocal does not cancel down to a polynomial. -/
theorem polynomial?_affineReciprocal (hk : k ≠ 0) :
    Antiderivative.polynomial? x (affineReciprocal x k c) = .ok none := by
  have hpoly : Poly.ofExpr? x (affineReciprocal x k c) = none := by
    simp [affineReciprocal, Poly.ofExpr?, ofExpr?_affineArgument, degree?_affine hk]
  have hdenom : ¬(affineReciprocalFunction k c).denom.isOne = true := by
    intro hone
    have hcoeff := congrArg (coeff · 1) (Poly.toPolynomial_of_isOne hone)
    simp [affineReciprocalFunction, coeff_one] at hcoeff
  have hread := toOption_eq_some_iff.1 (ofExpr?_affineReciprocal x hk c)
  rw [Antiderivative.polynomial?, hpoly, hread]
  simp only [if_neg hdenom]

/-- The written antiderivative. -/
def logPrimitive (x : String) (k c : Rat) : Expr :=
  .mul .one (.div (.call .log (affineArgument x k c)) (.const k))

/-- The reciprocal is integrated as the power with exponent `-1`. -/
theorem antiderivative_affineReciprocal (hk : k ≠ 0) :
    (antiderivative x (affineReciprocal x k c)).run = .ok (some (logPrimitive x k c)) := by
  have hmentions : (affineArgument x k c).mentions x = true := by
    simp [affineArgument, mentions]
  have hexponent : Antiderivative.constantExponent? (.int (-1)) = some (-1) := by
    rw [Antiderivative.constantExponent?, Expr.int, simplify_of_rational? rfl]
    rfl
  have hpower : Antiderivative.elementary? x (Simplify.pow (affineArgument x k c) (.int (-1))) =
      some (.div (.call .log (affineArgument x k c)) (.const k)) := by
    change Antiderivative.ofPower? x (affineArgument x k c) (.int (-1)) = _
    rw [Antiderivative.ofPower?, slope?_affineArgument x hk, hexponent]
    rfl
  rw [antiderivative.eq_def, polynomial?_affineReciprocal hk]
  simp only [affineReciprocal, mentions, hmentions, hpower]
  rfl

/-! ## The antiderivative at a bound -/

/-- At a constant the logarithm is left as it is, and the slope becomes its coefficient. -/
theorem simplify_logPrimitive (hk : k ≠ 0) (hone : k * a + c ≠ 1) :
    simplify ((logPrimitive x k c).substitute x (.const a)) =
      Simplify.scaled (1 / k) (.call .log (.const (k * a + c))) := by
  have hatom := Simplify.atom_log hone
  have harg : ((affineArgument x k c).substitute x (.const a)).rational? = some (k * a + c) := by
    simp [affineArgument, substitute, rational?]
  have hlog : Simplify.step (.div (.call .log ((affineArgument x k c).substitute x (.const a)))
      (.const k)) = Simplify.affine (.call .log (.const (k * a + c))) (1 / k) 0 := by
    rw [Simplify.step, Simplify.step, Simplify.step, Simplify.step_of_rational? harg]
    change Simplify.div (Simplify.step (.call .log (.const (k * a + c)))) _ = _
    rw [hatom.step, Simplify.div_atom_const hatom hk]
  have hproduct := Simplify.step_const_mul_eq_affine hatom 1 hlog
  rw [one_mul, mul_zero] at hproduct
  rw [← Simplify.affine_of_ne_zero _ (one_div_ne_zero hk)]
  exact simplify_of_step_eq_affine hatom hproduct

/-- The value of the written antiderivative where the argument is positive. -/
theorem hasValue_logPrimitive (hk : k ≠ 0) (hpos : 0 < k * a + c) (s : String → ℝ) :
    ((logPrimitive x k c).substitute x (.const a)).HasValue s (Real.log (k * a + c) / k) := by
  have hlt : (affineArgument x k c).degreeBound < Poly.wordSize :=
    show 0 + 1 + 0 < Poly.wordSize by decide
  have hvalue := Poly.hasValue_update_of_ofExpr? (ofExpr?_affineArgument x k c) hlt s a
  rw [Poly.eval_real_ratCast, Poly.eval_eq, toPolynomial_affine] at hvalue
  simp only [eval_add, eval_mul, eval_C, eval_X] at hvalue
  have hconst : (Expr.const a).HasValue s a := ⟨trivial, rfl⟩
  rw [hasValue_substitute_iff hconst]
  refine ⟨⟨trivial, ⟨hvalue.1, ?_⟩, trivial, Rat.cast_ne_zero.2 hk⟩, ?_⟩
  · rw [hvalue.2]
    exact Rat.cast_pos.2 hpos
  · change Expr.one.real _ * (Real.log ((affineArgument x k c).real _) / k) = _
    rw [hvalue.2, real_one, one_mul, Rat.cast_add, Rat.cast_mul]

/-! ## The integral -/

/-- The written antiderivative at the upper bound minus that at the lower one. -/
def logDifference (x : String) (k c a b : Rat) : Expr :=
  simplify (.sub (simplify ((logPrimitive x k c).substitute x (.const b)))
    (simplify ((logPrimitive x k c).substitute x (.const a))))

/-- Where the argument is positive at both bounds, the difference is the integral. -/
theorem hasValue_logDifference (hk : k ≠ 0) (ha : 0 < k * a + c) (hb : 0 < k * b + c)
    (s : String → ℝ) : (logDifference x k c a b).HasValue s
      ((Real.log |(k * b + c : ℝ)| - Real.log |(k * a + c : ℝ)|) / k) := by
  have hvalue {t : Rat} (ht : 0 < k * t + c) :=
    (keeps_simplify s _).hasValue (hasValue_logPrimitive (x := x) hk ht s)
  rw [Real.log_abs, Real.log_abs, sub_div]
  refine (keeps_simplify s _).hasValue ⟨⟨(hvalue hb).1, (hvalue ha).1⟩, ?_⟩
  rw [real, (hvalue hb).2, (hvalue ha).2]

/-- The first summand that has no value is reported. -/
theorem evaluate_add_of_error {d e : Expr} {why : UndefinedValue} (h : d.evaluate = .error why) :
    (Expr.add d e).evaluate = .error why := by
  rw [evaluate] at h ⊢
  rw [evalIn, h]
  rfl

/-- The error for a logarithm of a number that is not positive. -/
def refusedLog (q : Rat) : UndefinedValue := .nonPositiveLog (ofRat q) (.call .log (.const q))

section

variable (hk : HundredDigits k) (hc : HundredDigits c) (ha : HundredDigits a)
  (hb : HundredDigits b) (hk0 : k ≠ 0) (hab : a < b)

include hk hc ha hb hk0 hab

/-- Where it is negative, the logarithm of the smaller argument is refused. -/
theorem evaluate_logDifference (hna : k * a + c < 0) (hnb : k * b + c < 0) :
    (logDifference x k c a b).evaluate =
      .error (refusedLog (min (k * a + c) (k * b + c))) := by
  have hone {q : Rat} (hq : q < 0) : q ≠ 1 := fun h => absurd (h ▸ hq) (by norm_num)
  have hua := Simplify.atom_log (hone hna)
  have hub := Simplify.atom_log (hone hnb)
  have hm := one_div_ne_zero hk0
  rw [logDifference, simplify_logPrimitive hk0 (hone hna), simplify_logPrimitive hk0 (hone hnb)]
  rcases lt_or_gt_of_ne hk0 with hlt | hgt
  · have hle : k * b + c < k * a + c := by
      gcongr 1
      exact mul_lt_mul_of_neg_left hab hlt
    obtain ⟨hcompare, hcompare'⟩ := Simplify.compare_log hle
    rw [(Simplify.simplify_sub_pair hub hua hm hm hcompare hcompare').1, min_eq_right hle.le]
    exact evaluate_add_of_error
      (evaluate_scaled_log hm (hk.isFinite_one_div hk0) hnb.le (hk.isFinite_mul_add hb hc))
  · have hle : k * a + c < k * b + c := by gcongr
    obtain ⟨hcompare, hcompare'⟩ := Simplify.compare_log hle
    rw [(Simplify.simplify_sub_pair hua hub hm hm hcompare hcompare').2, min_eq_left hle.le]
    exact evaluate_add_of_error (evaluate_scaled_log (neg_ne_zero.2 hm)
      (hk.isFinite_neg_one_div hk0) hna.le (hk.isFinite_mul_add ha hc))

omit hk hc in
/-- Without a pole the integral is computed from the antiderivative, if that has a finite value. -/
theorem definiteIntegral_affineReciprocal (hne : (ofRat a == ofRat b) = false)
    (hpole : ¬Between a b (.const (-c / k))) :
    definiteIntegral x (affineReciprocal x k c) (.const a) (.const b) =
      ((logDifference x k c a b).evaluate.mapError
        (.divergent (affineReciprocal x k c) (.const a) (.const b))).map
          fun _ => logDifference x k c a b := by
  have heva : (Expr.const a).evaluate = .ok (ofRat a) :=
    evaluate_const_eq_ok_iff.2 ⟨ha.isFinite, rfl⟩
  have hevb : (Expr.const b).evaluate = .ok (ofRat b) :=
    evaluate_const_eq_ok_iff.2 ⟨hb.isFinite, rfl⟩
  rw [definiteIntegral, heva, hevb]
  simp only [bind, Except.bind, hne, poleBetween?_affineReciprocal hk0 hab.le hpole,
    antiderivative_affineReciprocal hk0]
  rw [← logDifference]
  cases (logDifference x k c a b).evaluate <;> rfl

/-- Where the argument is negative, the integral is reported to diverge. -/
theorem definiteIntegral_of_neg (hne : (ofRat a == ofRat b) = false)
    (hpole : ¬Between a b (.const (-c / k))) (hna : k * a + c < 0) (hnb : k * b + c < 0) :
    definiteIntegral x (affineReciprocal x k c) (.const a) (.const b) =
      .error (.divergent (affineReciprocal x k c) (.const a) (.const b)
        (refusedLog (min (k * a + c) (k * b + c)))) := by
  rw [definiteIntegral_affineReciprocal ha hb hk0 hab hne hpole,
    evaluate_logDifference hk hc ha hb hk0 hab hna hnb]
  rfl

end

/-- Bounds with the same float give zero, whatever the integrand is. -/
theorem definiteIntegral_of_beq {e lower upper : Expr} {fa fb : Float}
    (ha : lower.evaluate = .ok fa) (hb : upper.evaluate = .ok fb) (heq : (fa == fb) = true) :
    definiteIntegral x e lower upper = .ok .zero := by
  rw [definiteIntegral, ha, hb]
  simp only [bind, Except.bind, if_pos heq]
  rfl

/-- Without a zero between the bounds the argument has the same sign at both of them. -/
theorem argument_pos_or_neg (hab : a < b)
    (hzero : ∀ t : ℝ, (a : ℝ) ≤ t → t ≤ b → (k : ℝ) * t + c ≠ 0) :
    0 < k * a + c ∧ 0 < k * b + c ∨ k * a + c < 0 ∧ k * b + c < 0 := by
  have hle : (a : ℝ) ≤ b := Rat.cast_le.2 hab.le
  have hivt := intermediate_value_uIcc (a := (a : ℝ)) (b := (b : ℝ)) (f := fun t => (k : ℝ) * t + c)
    (by fun_prop)
  have hne : (0 : ℝ) ∉ Set.uIcc ((k : ℝ) * a + c) (k * b + c) := by
    intro hmem
    obtain ⟨t, ht, hroot⟩ := hivt hmem
    rw [Set.uIcc_of_le hle] at ht
    exact hzero t ht.1 ht.2 hroot
  rw [Set.mem_uIcc, not_or, not_and_or, not_and_or] at hne
  norm_cast at hne
  rcases hne with ⟨ha | hb, ha' | hb'⟩ <;> grind

/-- What the integral of `1 / (k * x + c)` is between bounds without a zero of the argument between
them. -/
theorem integral_of_reciprocal (hk : HundredDigits k) (hc : HundredDigits c) (ha : HundredDigits a)
    (hb : HundredDigits b) (hk0 : k ≠ 0) (hab : a < b)
    (hzero : ∀ t : ℝ, (a : ℝ) ≤ t → t ≤ b → (k : ℝ) * t + c ≠ 0) :
    let integral := definiteIntegral x (affineReciprocal x k c) (.const a) (.const b)
    let value := logDifference x k c a b
    let divergent := UndefinedValue.divergent (affineReciprocal x k c) (.const a) (.const b)
    ((ofRat a == ofRat b) = true → integral = .ok .zero) ∧
    ((ofRat a == ofRat b) = false → Between a b (.const (-c / k)) →
      ∃ point, integral = .error (divergent (.pole x point))) ∧
    ((ofRat a == ofRat b) = false → ¬Between a b (.const (-c / k)) →
      (0 < k * a + c →
        (∀ s, value.HasValue s
          ((Real.log |(k * b + c : ℝ)| - Real.log |(k * a + c : ℝ)|) / k)) ∧
        integral = (value.evaluate.mapError divergent).map fun _ => value) ∧
      (k * a + c < 0 →
        integral = .error (divergent (refusedLog (min (k * a + c) (k * b + c)))))) := by
  intro integral value divergent
  have hsign := argument_pos_or_neg hab hzero
  refine ⟨fun heq => ?_, fun hne hpole => ?_, fun hne hpole => ⟨fun hpos => ?_, fun hneg => ?_⟩⟩
  · exact definiteIntegral_of_beq (evaluate_const_eq_ok_iff.2 ⟨ha.isFinite, rfl⟩)
      (evaluate_const_eq_ok_iff.2 ⟨hb.isFinite, rfl⟩) heq
  · have hreports := reportsPole_iff_between (ofExpr?_affineReciprocal x hk0 c) ha.isFinite
      hb.isFinite hab.le (Bool.eq_false_iff.1 hne)
    refine hreports.2 ⟨.const (-c / k), ?_, hpole⟩
    rw [realRoots_affineReciprocal]
    exact List.mem_singleton.2 rfl
  · obtain ⟨hpa, hpb⟩ := hsign.resolve_right fun h => absurd h.1 hpos.not_gt
    exact ⟨hasValue_logDifference hk0 hpa hpb,
      definiteIntegral_affineReciprocal ha hb hk0 hab hne hpole⟩
  · obtain ⟨hna, hnb⟩ := hsign.resolve_left fun h => absurd h.1 hneg.not_gt
    exact definiteIntegral_of_neg hk hc ha hb hk0 hab hne hpole hna hnb

/-! ## On either side of the zero -/

/-- The integral of `1 / (2 * Q + 1)` from `1` to `3` is half of `log 7 - log 3`. -/
theorem integral_of_reciprocal_of_positive :
    (HundredDigits 2 ∧ HundredDigits 1 ∧ HundredDigits 3 ∧ (2 : Rat) ≠ 0 ∧ (1 : Rat) < 3 ∧
      ∀ t : ℝ, ((1 : Rat) : ℝ) ≤ t → t ≤ ((3 : Rat) : ℝ) →
        ((2 : Rat) : ℝ) * t + (1 : Rat) ≠ 0) ∧
    (∀ s, (logDifference "Q" 2 1 1 3).HasValue s ((Real.log |7| - Real.log |3|) / 2)) ∧
      definiteIntegral "Q" (affineReciprocal "Q" 2 1) (.const 1) (.const 3) =
        ((logDifference "Q" 2 1 1 3).evaluate.mapError
          (.divergent (affineReciprocal "Q" 2 1) (.const 1) (.const 3))).map
            fun _ => logDifference "Q" 2 1 1 3 := by
  have h2 : HundredDigits 2 := by decide
  have h1 : HundredDigits 1 := by decide
  have h3 : HundredDigits 3 := by decide
  have hzero : ∀ t : ℝ, ((1 : Rat) : ℝ) ≤ t → t ≤ ((3 : Rat) : ℝ) →
      ((2 : Rat) : ℝ) * t + (1 : Rat) ≠ 0 := by
    intro t ht _
    push_cast at ht ⊢
    linarith
  have hne : (ofRat 1 == ofRat 3) = false := by decide
  have hpole : ¬Between 1 3 (.const (-1 / 2)) := by
    rw [between_const_iff h1.isFinite h3.isFinite (by with_unfolding_all decide)]
    norm_num
  obtain ⟨-, -, hintegral⟩ :=
    integral_of_reciprocal (x := "Q") h2 h1 h1 h3 two_ne_zero (by norm_num) hzero
  obtain ⟨hvalue, heq⟩ := (hintegral hne hpole).1 (by norm_num)
  refine ⟨⟨h2, h1, h3, two_ne_zero, by norm_num, hzero⟩, fun s => ?_, heq⟩
  convert hvalue s using 4 <;> norm_num

/-- The integral of `1 / Q` from `-2` to `-1` is `-log 2`, and is reported to diverge. -/
theorem integral_of_reciprocal_of_negative :
    (∀ t : ℝ, -2 ≤ t → t ≤ -1 → (1 : ℝ) * t + 0 ≠ 0) ∧
      definiteIntegral "Q" (affineReciprocal "Q" 1 0) (.const (-2)) (.const (-1)) =
        .error (.divergent (affineReciprocal "Q" 1 0) (.const (-2)) (.const (-1))
          (.nonPositiveLog (ofRat (-2)) (.call .log (.const (-2))))) := by
  have h1 : HundredDigits 1 := by decide
  have h0 : HundredDigits 0 := by decide
  have ha : HundredDigits (-2) := by decide
  have hb : HundredDigits (-1) := by decide
  have hne : (ofRat (-2) == ofRat (-1)) = false := by decide
  have hpole : ¬Between (-2) (-1) (.const (-0 / 1)) := by
    rw [between_const_iff ha.isFinite hb.isFinite (by with_unfolding_all decide)]
    norm_num
  have hmin : min (1 * (-2) + 0 : Rat) (1 * (-1) + 0) = -2 := by norm_num
  have hintegral := definiteIntegral_of_neg (x := "Q") h1 h0 ha hb one_ne_zero (by norm_num) hne
    hpole (by norm_num) (by norm_num)
  rw [hmin] at hintegral
  exact ⟨fun t _ ht => by linarith, hintegral⟩

end MarketAlgebra
