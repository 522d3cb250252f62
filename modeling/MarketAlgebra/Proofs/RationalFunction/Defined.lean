import MarketAlgebra.Proofs.RationalFunction.Value

/-!
# Where an expression has a value

At a point where an expression has a value, the rational function that it expands to has the same
value, as long as the degrees are words (`Expands.hasValue`).  So the denominator in lowest terms
does not vanish there: cancelling may fill a gap, as in `Q / Q`, but never opens one.
-/

namespace MarketAlgebra.RationalFunction

open MarketAlgebra.Expr Polynomial

/-- The function has a value at a point where its denominator does not vanish. -/
def HasValue (f : RationalFunction) (t v : ℝ) : Prop := f.denom.real.eval t ≠ 0 ∧ f.value t = v

variable {f g : RationalFunction} {x : String} {s : String → ℝ} {e : Expr} {t v w : ℝ}

/-! ## Arithmetic -/

theorem hasValue_ofPoly (p : Poly) (t : ℝ) : (ofPoly p).HasValue t (p.real.eval t) := by
  refine ⟨?_, value_ofPoly p t⟩
  rw [ofPoly, Poly.real, Poly.toPolynomial_one, Polynomial.map_one, eval_one]
  exact one_ne_zero

theorem HasValue.add (h : Exact f g) (hf : f.HasValue t v) (hg : g.HasValue t w) :
    (f.add g).HasValue t (v + w) := by
  refine ⟨?_, by rw [value_add h hf.1 hg.1, hf.2, hg.2]⟩
  rw [RationalFunction.add, Poly.real_mul h.denom_denom, eval_mul]
  exact mul_ne_zero hf.1 hg.1

theorem HasValue.sub (h : Exact f g) (hf : f.HasValue t v) (hg : g.HasValue t w) :
    (f.sub g).HasValue t (v - w) := by
  refine ⟨?_, by rw [value_sub h hf.1 hg.1, hf.2, hg.2]⟩
  rw [RationalFunction.sub, Poly.real_mul h.denom_denom, eval_mul]
  exact mul_ne_zero hf.1 hg.1

theorem HasValue.mul (h : Exact f g) (hf : f.HasValue t v) (hg : g.HasValue t w) :
    (f.mul g).HasValue t (v * w) := by
  refine ⟨?_, by rw [value_mul h, hf.2, hg.2]⟩
  rw [RationalFunction.mul, Poly.real_mul h.denom_denom, eval_mul]
  exact mul_ne_zero hf.1 hg.1

theorem HasValue.neg (hf : f.HasValue t v) : f.neg.HasValue t (-v) :=
  ⟨hf.1, by rw [value_neg, hf.2]⟩

/-- The reciprocal of a value other than zero. -/
theorem HasValue.swap (hf : f.HasValue t v) (hv : v ≠ 0) : f.swap.HasValue t v⁻¹ := by
  obtain ⟨-, rfl⟩ := hf
  exact ⟨(div_ne_zero_iff.1 hv).1, value_swap f t⟩

theorem HasValue.zpow {k : ℤ} (h : ExactPower f k.natAbs) (hf : f.HasValue t v)
    (hv : k < 0 → v ≠ 0) : (f.zpow k).HasValue t (v ^ k) := by
  refine ⟨?_, by rw [value_zpow h, hf.2]⟩
  rw [RationalFunction.zpow, RationalFunction.pow]
  split
  case isTrue =>
    rw [Poly.real_pow h.denom, eval_pow]
    exact pow_ne_zero _ hf.1
  case isFalse hneg =>
    rw [Poly.real_pow h.swap.denom, eval_pow]
    exact pow_ne_zero _ (hf.swap (hv (not_le.1 hneg))).1

/-- Reduction keeps every value. -/
theorem HasValue.reduce (hf : f.HasValue t v) : f.reduce.HasValue t v := by
  obtain ⟨ht, rfl⟩ := hf
  have hne : f.denom.toPolynomial ≠ 0 := by
    intro hz
    rw [Poly.real_eq_zero_iff.2 hz, eval_zero] at ht
    exact ht rfl
  obtain ⟨hlowest, hreduce⟩ := reduce_spec (proper_of_denom_ne_zero hne)
  have hreal := congrArg (fun F => (F.map (algebraMap ℚ ℝ)).eval t) hreduce
  simp only [Polynomial.map_mul, eval_mul] at hreal
  obtain ⟨c, hc⟩ : f.reduce.denom.toPolynomial ∣ f.denom.toPolynomial :=
    hlowest.isCoprime.symm.dvd_of_dvd_mul_left ⟨f.numer.toPolynomial, by rw [hreduce, mul_comm]⟩
  have hdenom : f.reduce.denom.real.eval t ≠ 0 := by
    intro hz
    rw [Poly.real, hc, Polynomial.map_mul, eval_mul] at ht
    exact ht (by rw [← Poly.real, hz, zero_mul])
  exact ⟨hdenom, (div_eq_div_iff hdenom ht).2 hreal⟩

/-- A function over the denominator one has the values of its numerator. -/
theorem value_of_isOne (h : f.denom.isOne = true) (t : ℝ) : f.value t = f.numer.real.eval t := by
  rw [value, Poly.real.eq_def f.denom, Poly.toPolynomial_of_isOne h, Polynomial.map_one, eval_one,
    div_one]

/-! ## Expressions -/

/-- While the degrees are words, the function that an expression expands to has the value of the
expression. -/
theorem Expands.hasValue (h : Expands x e f) (hlt : e.degreeBound < Poly.wordSize)
    (he : e.HasValue s v) : f.HasValue (s x) v := by
  induction h generalizing v with
  | var =>
    obtain ⟨-, rfl⟩ := he
    simpa only [Poly.real_x, eval_X, Expr.real] using hasValue_ofPoly Poly.x (s x)
  | const c =>
    obtain ⟨-, rfl⟩ := he
    simpa only [Poly.real_const, eval_C, Expr.real] using hasValue_ofPoly (.const c) (s x)
  | add ha hb _ iha ihb =>
    obtain ⟨⟨da, db⟩, rfl⟩ := he
    rw [degreeBound] at hlt
    exact (HasValue.add (ha.exact hb hlt).1 (iha (by omega) da.hasValue)
      (ihb (by omega) db.hasValue)).reduce
  | sub ha hb _ iha ihb =>
    obtain ⟨⟨da, db⟩, rfl⟩ := he
    rw [degreeBound] at hlt
    exact (HasValue.sub (ha.exact hb hlt).1 (iha (by omega) da.hasValue)
      (ihb (by omega) db.hasValue)).reduce
  | mul ha hb _ iha ihb =>
    obtain ⟨⟨da, db⟩, rfl⟩ := he
    rw [degreeBound] at hlt
    exact (HasValue.mul (ha.exact hb hlt).1 (iha (by omega) da.hasValue)
      (ihb (by omega) db.hasValue)).reduce
  | div ha hb _ _ iha ihb =>
    obtain ⟨⟨da, db, hne⟩, rfl⟩ := he
    rw [degreeBound] at hlt
    exact (HasValue.mul (ha.exact hb hlt).2 (iha (by omega) da.hasValue)
      ((ihb (by omega) db.hasValue).swap hne)).reduce
  | @neg a _ _ ih =>
    obtain ⟨da, rfl⟩ := he
    exact (ih hlt (Defined.hasValue (e := a) da)).neg.reduce
  | pow ha hk _ _ _ ih =>
    obtain ⟨⟨da, -, hpow⟩, rfl⟩ := he
    have hvalue := (hasValue_of_integerExponent? hk s).2
    rw [hvalue, powDefined_int_iff] at hpow
    rw [Expr.real, hvalue, Real.rpow_intCast]
    have hbase := ih ((degreeBound_le_pow _ _).trans_lt hlt) da.hasValue
    exact (HasValue.zpow (ha.exactPower hk hlt) hbase hpow).reduce

end MarketAlgebra.RationalFunction
