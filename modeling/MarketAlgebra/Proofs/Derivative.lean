import MarketAlgebra.Proofs.Differentiation
import MarketAlgebra.Proofs.RationalFunction.Value
import MarketAlgebra.Proofs.Simplify.Constant

/-!
# Derivatives of rational expressions

The symbolic derivative of an expression that expands to a rational function has the value of the
derivative of that function, as long as the degrees are words, at all but finitely many points
(`Expands.eventually_derivesAt`).  The exceptions are the zeros of denominators and of bases with an
exponent that is not positive.  One base needs care: the derivative of `u ^ 0` is written as
`0 * u ^ (-1) * u'`, and if `u` vanishes everywhere, the written form has a value nowhere.  But
there the pass that simplifies it finds the factor zero.
-/

namespace MarketAlgebra

open Filter Polynomial Topology

namespace Simplify

open MarketAlgebra.Expr

/-! ## Zero as a factor -/

/-- A power that vanishes has a vanishing base and a positive exponent. -/
theorem pos_of_rpow_eq_zero {a m : ℝ} (hd : PowDefined a m) (h : a ^ m = 0) : a = 0 ∧ 0 < m := by
  rcases hd with ha | ⟨rfl, hm⟩ | ⟨ha, n, rfl⟩
  · exact absurd h (Real.rpow_pos_of_pos ha m).ne'
  · refine ⟨rfl, hm.lt_of_ne fun hz => ?_⟩
    rw [← hz, Real.rpow_zero] at h
    exact one_ne_zero h
  · rw [Real.rpow_intCast] at h
    exact absurd h (zpow_ne_zero n ha.ne)

/-- A negative power of something that vanishes is not computed to a sum. -/
theorem isSum_powConstant {s : String → ℝ} {x : Expr} {e : Rat} (hx : x.HasValue s 0)
    (he : e < 0) : isSum (powConstant x e) = false := by
  fun_induction powConstant x e with
  | case1 x => exact absurd he (lt_irrefl 0)
  | case2 x => exact absurd he (by norm_num)
  | case3 e _ _ b =>
    rw [powConstants]
    split <;> rfl
  | case4 e _ _ base m _ ih =>
    obtain ⟨⟨hbase, -, hpow⟩, hzero⟩ := hx
    obtain ⟨hz, hm⟩ := pos_of_rpow_eq_zero hpow hzero
    refine ih ⟨hbase, hz⟩ (mul_neg_of_pos_of_neg ?_ he)
    exact_mod_cast (show (0 : ℝ) < (m : ℝ) from hm)
  | case5 | case6 => rfl

/-- Zero times anything but a sum is found to be zero, whether or not the other factor has a
value. -/
theorem zero_mul_of_not_isSum {y : Expr} (hy : isSum y = false) :
    mul (.const 0) y = .const 0 := by
  rw [mul_of_not_isSum rfl hy]
  cases hc : y.constant? with
  | some d =>
    rw [eq_const_of_constant? hc]
    exact congrArg Expr.const (zero_mul d)
  | none => simp [mulFactors_eq (.inr hc), zero]

end Simplify

/-! ## Exponents -/

namespace Expr

variable {e : Expr}

theorem rational?_of_integerExponent? {k : ℤ} (h : e.integerExponent? = some k) :
    e.rational? = some (k : Rat) := by
  induction e generalizing k with
  | const c =>
    simp only [integerExponent?, Option.ite_none_right_eq_some, Option.some.injEq] at h
    obtain ⟨⟨hden, -, -⟩, rfl⟩ := h
    rw [rational?, Rat.den_eq_one_iff c |>.1 hden]
  | neg a ih =>
    obtain ⟨n, hn, rfl⟩ := Option.map_eq_some_iff.1 h
    rw [rational?, ih hn, Int.cast_neg]
    rfl
  | _ => cases h

theorem rational?_predecessor {q : Rat} (h : e.rational? = some q) :
    (Derivative.predecessor e).rational? = some (q - 1) := by
  fun_cases Derivative.predecessor e with
  | case1 c =>
    obtain rfl := Option.some.inj h
    rfl
  | case2 =>
    rw [rational?, h]
    rfl

/-- A constant expression does not mention any variable. -/
theorem mentions_of_rational? {q : Rat} (h : e.rational? = some q) (x : String) :
    e.mentions x = false := by
  rw [rational?_eq_some_iff] at h
  induction h with
  | const c => rfl
  | add _ _ iha ihb | sub _ _ iha ihb | mul _ _ iha ihb | div _ _ _ iha ihb | pow _ _ _ iha ihb =>
    exact Bool.or_eq_false_iff.2 ⟨iha, ihb⟩
  | neg _ ih => exact ih

end Expr

open MarketAlgebra.Expr MarketAlgebra.Derivative

/-! ## A vanishing base -/

namespace DerivesAt

variable {s : String → ℝ} {x : String} {u n : Expr}

/-- The power rule where a vanishing expression has the exponent zero. -/
theorem hasValue_powerRule_zero {u' : Expr} (hn : n.integerExponent? = some 0)
    (hu : u.HasValue s 0) (hu' : u'.HasValue s 0) : (powerRule u n u').HasValue s 0 := by
  have hrational : n.rational? = some ((0 : ℤ) : Rat) := rational?_of_integerExponent? hn
  have hexponent : Simplify.step n = .const 0 := Simplify.step_of_rational? hrational
  have hpredecessor : Simplify.step (predecessor n) = .const (-1) :=
    Simplify.step_of_rational? (by rw [rational?_predecessor hrational]; norm_num)
  have hsum : Simplify.isSum (Simplify.pow (Simplify.step u) (.const (-1))) = false :=
    Simplify.isSum_powConstant ((Simplify.keeps_step s u).hasValue hu) (by norm_num)
  rw [powerRule, simplifyOnce_eq_step, Simplify.step, Simplify.step, Simplify.step, hexponent,
    hpredecessor, Simplify.zero_mul_of_not_isSum hsum]
  refine (Simplify.keeps_mul s _ _).hasValue ?_
  have hstep := (Simplify.keeps_step s u').hasValue hu'
  exact ⟨⟨trivial, hstep.1⟩, by rw [real, hstep.2, mul_zero]⟩

/-- A vanishing expression with the exponent zero is one, and its derivative zero. -/
theorem pow_zero (hu : DerivesAt x s u 0) (hz : u.real s = 0) (hn : n.integerExponent? = some 0) :
    DerivesAt x s (.pow u n) 0 where
  defined := by
    have hvalue := hasValue_of_integerExponent? hn s
    refine ⟨hu.defined, hvalue.1, ?_⟩
    rw [hvalue.2, powDefined_int_iff]
    exact fun hneg => absurd hneg (lt_irrefl 0)
  hasDerivAt := by
    have hone (t : ℝ) : (Expr.pow u n).real (Function.update s x t) = 1 := by
      rw [real, (hasValue_of_integerExponent? hn _).2, Int.cast_zero, Real.rpow_zero]
    simpa only [hone] using hasDerivAt_const (s x) (1 : ℝ)
  hasValue := by
    have hmentions := mentions_of_rational? (rational?_of_integerExponent? hn) x
    rw [derivative, if_neg (Bool.eq_false_iff.1 hmentions)]
    exact hasValue_powerRule_zero hn ⟨hu.defined, hz⟩ hu.hasValue

/-- The derivative of the value as a function of the variable, at a point of the line. -/
theorem hasDerivAt_update {t d : ℝ} {e : Expr} (h : DerivesAt x (Function.update s x t) e d) :
    HasDerivAt (fun u => e.real (Function.update s x u)) d t := by
  simpa only [Function.update_idem, Function.update_self] using h.hasDerivAt

end DerivesAt

/-! ## Rational functions -/

namespace RationalFunction

variable {f : RationalFunction} {x : String} {e : Expr} {t : ℝ}

/-- The value of the derivative, by the quotient rule. -/
noncomputable def slope (f : RationalFunction) (t : ℝ) : ℝ :=
  ((Polynomial.derivative f.numer.real).eval t * f.denom.real.eval t -
    f.numer.real.eval t * (Polynomial.derivative f.denom.real).eval t) / f.denom.real.eval t ^ 2

theorem hasDerivAt_value (ht : f.denom.real.eval t ≠ 0) : HasDerivAt f.value (f.slope t) t :=
  (f.numer.real.hasDerivAt t).div (f.denom.real.hasDerivAt t) ht

/-- The derivative of the zero function is zero. -/
theorem slope_eq_zero (h : f.numer.toPolynomial = 0) (t : ℝ) : f.slope t = 0 := by
  rw [slope, Poly.real_eq_zero_iff.2 h, Polynomial.derivative_zero, eval_zero, zero_mul, zero_mul,
    sub_zero, zero_div]

/-- There is only one value that a symbolic derivative can have. -/
theorem Expands.eventually_eq (h : Expands x e f) (hlt : e.degreeBound < Poly.wordSize)
    (s : String → ℝ) : ∀ᶠ t in cofinite, ∀ d,
    DerivesAt x (Function.update s x t) e d → d = f.slope t := by
  filter_upwards [eventually_eventually_nhds (h.eventually_hasValue hlt s),
    eventually_denom_ne_zero h.lowest.denom_ne_zero] with t hvalue hdenom d hd
  have heq : (fun u => e.real (Function.update s x u)) =ᶠ[𝓝 t] f.value :=
    hvalue.mono fun u hu => hu.2
  exact hd.hasDerivAt_update.unique ((hasDerivAt_value hdenom).congr_of_eventuallyEq heq)

/-- An expression that expands to a rational function is differentiated almost everywhere. -/
theorem Expands.eventually_exists_derivesAt (h : Expands x e f)
    (hlt : e.degreeBound < Poly.wordSize) (s : String → ℝ) :
    ∀ᶠ t in cofinite, ∃ d, DerivesAt x (Function.update s x t) e d := by
  induction h with
  | var => exact .of_forall fun t => ⟨_, .var x⟩
  | const c => exact .of_forall fun t => ⟨_, .const c⟩
  | add _ _ _ iha ihb =>
    rw [Expr.degreeBound] at hlt
    filter_upwards [iha (by omega), ihb (by omega)] with t ha hb
    obtain ⟨⟨a', ha⟩, b', hb⟩ := And.intro ha hb
    exact ⟨_, ha.add hb⟩
  | sub _ _ _ iha ihb =>
    rw [Expr.degreeBound] at hlt
    filter_upwards [iha (by omega), ihb (by omega)] with t ha hb
    obtain ⟨⟨a', ha⟩, b', hb⟩ := And.intro ha hb
    exact ⟨_, ha.sub hb⟩
  | mul _ _ _ iha ihb =>
    rw [Expr.degreeBound] at hlt
    filter_upwards [iha (by omega), ihb (by omega)] with t ha hb
    obtain ⟨⟨a', ha⟩, b', hb⟩ := And.intro ha hb
    exact ⟨_, ha.mul hb⟩
  | div _ hb hne _ iha ihb =>
    rw [Expr.degreeBound] at hlt
    filter_upwards [iha (by omega), ihb (by omega), hb.eventually_hasValue (by omega) s,
      hb.lowest.eventually_value_ne_zero hne] with t ha hb hvalue ht
    obtain ⟨⟨a', ha⟩, b', hb⟩ := And.intro ha hb
    rw [← hvalue.2] at ht
    exact ⟨_, ha.div hb ht⟩
  | neg _ ih =>
    filter_upwards [ih hlt] with t ha
    obtain ⟨a', ha⟩ := ha
    exact ⟨_, ha.neg⟩
  | @pow a b f k ha hk hlimit hne _ ih =>
    have hmentions := mentions_of_rational? (rational?_of_integerExponent? hk) x
    have hbase := (Expr.degreeBound_le_pow a b).trans_lt hlt
    by_cases hzero : f.numer.toPolynomial = 0
    · have hk0 : 0 ≤ k := not_lt.1 fun hneg => hne hneg hzero
      filter_upwards [ih hbase, ha.eventually_eq hbase s, ha.eventually_hasValue hbase s]
        with t ha heq hvalue
      obtain ⟨a', ha⟩ := ha
      rcases hk0.eq_or_lt with rfl | hpos
      · rw [heq a' ha, slope_eq_zero hzero] at ha
        exact ⟨_, ha.pow_zero (hvalue.2.trans (value_eq_zero hzero)) hk⟩
      · have hb := hasValue_of_integerExponent? hk (Function.update s x t)
        exact ⟨_, ha.pow_of_not_mentions hb.1 hmentions (.inr ⟨k, hb.2, .inr hpos⟩)⟩
    · filter_upwards [ih hbase, ha.eventually_hasValue hbase s,
        ha.lowest.eventually_value_ne_zero hzero] with t ha hvalue ht
      obtain ⟨a', ha⟩ := ha
      have hb := hasValue_of_integerExponent? hk (Function.update s x t)
      rw [← hvalue.2] at ht
      exact ⟨_, ha.pow_of_not_mentions hb.1 hmentions (.inr ⟨k, hb.2, .inl ht⟩)⟩

/-- While the degrees are words, the symbolic derivative of an expression that expands to a rational
function has the values of the derivative of the function. -/
theorem Expands.eventually_derivesAt (h : Expands x e f) (hlt : e.degreeBound < Poly.wordSize)
    (s : String → ℝ) :
    ∀ᶠ t in cofinite, DerivesAt x (Function.update s x t) e (f.slope t) := by
  filter_upwards [h.eventually_exists_derivesAt hlt s, h.eventually_eq hlt s] with t hd heq
  obtain ⟨d, hd⟩ := hd
  rwa [← heq d hd]

end RationalFunction

/-- When the simplified derivative is read as a polynomial, it is the derivative of the polynomial,
while the degrees are words. -/
theorem real_ofExpr?_derivative {x : String} {e : Expr} {p q : Poly} (h : Poly.ofExpr? x e = some p)
    (hlt : e.degreeBound < Poly.wordSize)
    (h' : Poly.ofExpr? x (simplify (derivative x e)) = some q)
    (hlt' : (simplify (derivative x e)).degreeBound < Poly.wordSize) :
    q.real = Polynomial.derivative p.real := by
  have hexpands := RationalFunction.expands_ofPoly (Poly.ofExpr?_eq_some_iff.1 h)
  have hagree : ∀ᶠ t in cofinite, q.real.eval t = (Polynomial.derivative p.real).eval t := by
    filter_upwards [hexpands.eventually_derivesAt hlt fun _ => 0] with t hd
    have hderiv := hd.hasDerivAt_update
    simp only [(Poly.hasValue_update_of_ofExpr? h hlt _ _).2] at hderiv
    rw [← hderiv.unique (p.real.hasDerivAt t)]
    have hvalue := (keeps_simplify _ _).hasValue hd.hasValue
    exact (Poly.hasValue_update_of_ofExpr? h' hlt' _ t).unique hvalue
  exact Polynomial.eq_of_infinite_eval_eq _ _ (frequently_cofinite_iff_infinite.1 hagree.frequently)

end MarketAlgebra
