import MarketAlgebra.Proofs.Integral
import MarketAlgebra.Proofs.Number.Nearest
import MarketAlgebra.Proofs.Poly.Representation

/-!
# Exact integrals of polynomials

Between rational bounds the integral of a polynomial has the exact value that the antiderivative
gives, it adds up over adjacent intervals, and it changes sign with its direction
(`polynomial_integral_is_exact`).  Two tests of the program limit this.

* Bounds with the same approximation count as equal, so they have to be `Told` apart.
* A power is computed only while its exponent fits into 32 bits.  Up to that degree the integral is
  one constant, and beyond it an expression of constants.
-/

namespace MarketAlgebra

open MarketAlgebra.Expr MarketAlgebra.Binary64

variable {x : String} {e d u v w : Expr} {p : Poly} {a b c r : Rat}

/-! ## Values -/

/-- Expressions with one and the same value everywhere. -/
theorem Expr.Same.of_hasValue {t : ℝ} (he : ∀ s, e.HasValue s t) (hd : ∀ s, d.HasValue s t) :
    Same e d := fun s _ =>
  ⟨fun h => (he s).unique h ▸ hd s, fun h => (hd s).unique h ▸ he s⟩

/-- The integral between rational bounds has the value of the antiderivative. -/
theorem hasValue_definiteIntegral_const (hp : Poly.ofExpr? x e = some p) (hab : Told a b)
    (h : definiteIntegral x e (.const a) (.const b) = .ok v) (s : String → ℝ) :
    v.HasValue s ((p.integral.eval b - p.integral.eval a : Rat) : ℝ) := by
  rw [Rat.cast_sub, ← Poly.eval_real_ratCast, ← Poly.eval_real_ratCast]
  refine hasValue_definiteIntegral hp (defined_const a).hasValue (defined_const b).hasValue ?_ h
  intro fa fb ha hb hbeq
  obtain ⟨-, rfl⟩ := evaluate_const_eq_ok_iff.1 ha
  obtain ⟨-, rfl⟩ := evaluate_const_eq_ok_iff.1 hb
  exact congrArg _ (hab hbeq)

/-! ## Constants -/

/-- The size of the antiderivative of a polynomial whose degree is not too large. -/
theorem Poly.size_integral_le (h : ∀ n, p.degree? = some n → n + 1 < 2 ^ 32) :
    p.integral.size ≤ 2 ^ 32 := by
  have hsize : p.size < 2 ^ 32 := by
    rw [size]
    cases hts : p.terms with
    | nil => decide
    | cons t ts => exact h t.1 (by rw [degree?, hts]; rfl)
  have hi : p.isIntegrable = true := isIntegrable_iff.2 (hsize.trans (by decide))
  rw [size_le_iff, terms_integral hi]
  intro t ht
  obtain ⟨u, hu, rfl⟩ := List.mem_map.1 ht
  exact (Nat.succ_le_of_lt (size_le_iff.1 le_rfl u hu)).trans_lt hsize

/-- The integral is one constant where every power is computed. -/
theorem definiteIntegral_eq_const (hp : Poly.ofExpr? x e = some p)
    (hsize : p.integral.size ≤ 2 ^ 32) (hab : Told a b)
    (h : definiteIntegral x e (.const a) (.const b) = .ok v) :
    v = .const (p.integral.eval b - p.integral.eval a) := by
  rw [definiteIntegral_eq hp, antiderivativeDifference_const x hsize] at h
  obtain ⟨fa, ha, h⟩ := bind_eq_ok_iff.1 h
  obtain ⟨fb, hb, h⟩ := bind_eq_ok_iff.1 h
  obtain ⟨-, rfl⟩ := evaluate_const_eq_ok_iff.1 ha
  obtain ⟨-, rfl⟩ := evaluate_const_eq_ok_iff.1 hb
  split at h
  case isTrue hbeq =>
    obtain rfl := Except.ok.inj h
    rw [hab hbeq, sub_self]
    rfl
  case isFalse =>
    obtain ⟨_, -, h⟩ := bind_eq_ok_iff.1 h
    obtain ⟨_, -, h⟩ := bind_eq_ok_iff.1 h
    exact (Except.ok.inj h).symm

/-- The integral is found where nothing overflows. -/
theorem definiteIntegral_eq_ok (hp : Poly.ofExpr? x e = some p) (hi : p.isIntegrable = true)
    (hsize : p.integral.size ≤ 2 ^ 32) (hab : Told a b)
    (ha : (Binary64.ofRat a).isFinite = true) (hb : (Binary64.ofRat b).isFinite = true)
    (hr : (Binary64.ofRat r).isFinite = true)
    (heval : p.integral.eval b - p.integral.eval a = r) :
    definiteIntegral x e (.const a) (.const b) = .ok (.const r) := by
  have hvalue (c : Rat) (hc : (Binary64.ofRat c).isFinite = true) :
      (Expr.const c).evaluate = .ok (Binary64.ofRat c) := evaluate_const_eq_ok_iff.2 ⟨hc, rfl⟩
  rw [definiteIntegral_eq hp, antiderivativeDifference_const x hsize, heval, hvalue a ha,
    hvalue b hb, hvalue r hr, integrated_eq_ok_iff.2 ⟨hi, rfl⟩]
  change (if _ then _ else _) = _
  split
  case isTrue hbeq =>
    rw [← heval, hab hbeq, sub_self]
    rfl
  case isFalse => rfl

/-- The integral of a polynomial between rational bounds that floats tell apart is the difference
of the antiderivative at the bounds.  It adds up over adjacent intervals and changes sign when the
bounds are exchanged.  Unless the degree is beyond the limit for powers, it is a constant. -/
theorem polynomial_integral_is_exact (hp : Poly.ofExpr? x e = some p) (hab : Told a b)
    (h : definiteIntegral x e (.const a) (.const b) = .ok v) :
    (∀ s, v.HasValue s ((p.integral.eval b - p.integral.eval a : Rat) : ℝ)) ∧
    ((∀ n, p.degree? = some n → n + 1 < 2 ^ 32) →
      v = .const (p.integral.eval b - p.integral.eval a)) ∧
    (∀ c u w, Told b c → Told a c → definiteIntegral x e (.const b) (.const c) = .ok u →
      definiteIntegral x e (.const a) (.const c) = .ok w → Same w (.add v u)) ∧
    ∀ w, definiteIntegral x e (.const b) (.const a) = .ok w → Same w (.neg v) := by
  have hv := hasValue_definiteIntegral_const hp hab h
  refine ⟨hv, fun hdegree => definiteIntegral_eq_const hp (Poly.size_integral_le hdegree) hab h,
    fun c u w hbc hac hu hw => ?_, fun w hw => ?_⟩
  case refine_1 =>
    refine .of_hasValue (hasValue_definiteIntegral_const hp hac hw) fun s => ?_
    have hu := hasValue_definiteIntegral_const hp hbc hu s
    refine ⟨⟨(hv s).1, hu.1⟩, ?_⟩
    rw [Expr.real, (hv s).2, hu.2]
    push_cast
    ring
  case refine_2 =>
    refine .of_hasValue (hasValue_definiteIntegral_const hp hab.symm hw) fun s => ⟨(hv s).1, ?_⟩
    rw [Expr.real, (hv s).2]
    push_cast
    ring

/-- The product `(Q - 1) * (Q + 1)`, which is not expanded, from `-1 / 2` to `3 / 2`. -/
theorem polynomial_integral_of_product :
    let e : Expr := .mul (.sub (.var "Q") .one) (.add (.var "Q") .one)
    let p : Poly := Poly.x.pow 2 - .one
    (Poly.ofExpr? "Q" e = some p ∧ Told (-1 / 2) (3 / 2) ∧
      definiteIntegral "Q" e (.const (-1 / 2)) (.const (3 / 2)) = .ok (.const (-5 / 6))) ∧
    Expr.const (-5 / 6) = .const (p.integral.eval (3 / 2) - p.integral.eval (-1 / 2)) := by
  intro e p
  have hp : Poly.ofExpr? "Q" e = some p := by with_unfolding_all rfl
  have htold : Told (-1 / 2) (3 / 2) := fun hbeq => absurd hbeq (by with_unfolding_all decide)
  have h : definiteIntegral "Q" e (.const (-1 / 2)) (.const (3 / 2)) = .ok (.const (-5 / 6)) :=
    definiteIntegral_eq_ok hp (by with_unfolding_all decide) (by with_unfolding_all decide) htold
      (by with_unfolding_all rfl) (by with_unfolding_all rfl) (by with_unfolding_all rfl)
      (by with_unfolding_all decide)
  have hdegree (n : ℕ) (hn : p.degree? = some n) : n + 1 < 2 ^ 32 := by
    have htwo : p.degree? = some 2 := by with_unfolding_all rfl
    obtain rfl := Option.some.inj (htwo.symm.trans hn)
    norm_num
  exact ⟨⟨hp, htold, h⟩, (polynomial_integral_is_exact hp htold h).2.1 hdegree⟩

/-! ## Where the tests stand in the way -/

/-- The power of the degree `2 ^ 32`. -/
def largePower : Expr :=
  .pow (.pow (.pow (.pow (.var "Q") (.const 512)) (.const 512)) (.const 512)) (.const 32)

/-- A power of the degree `2 ^ 32 + 1` at a constant, which is not computed. -/
def largeFactor (c : Rat) : Expr := .pow (.const c) (.const (2 ^ 32 + 1))

/-- The coefficient of the antiderivative of the power. -/
def largeCoefficient : Rat := 1 / (2 ^ 32 + 1)

/-- The rows of the difference of the antiderivative at `-1` and at `1`. -/
def largeRows : Simplify.Coefficients :=
  [([largeFactor (-1)], largeCoefficient), ([largeFactor 1], -largeCoefficient)]

/-- The integral of the power from `1` to `-1`, as simplification leaves it. -/
def largeIntegral : Expr :=
  .add (.mul (.const largeCoefficient) (largeFactor (-1)))
    (.mul (.const (-largeCoefficient)) (largeFactor 1))

/-- The rows are in order, and each is one term. -/
theorem ofCoefficients_largeRows : Simplify.ofCoefficients largeRows = largeIntegral := by
  have hsorted : largeRows.mergeSort (fun r s => (Expr.compareLists r.1 s.1).isLE) = largeRows :=
    List.mergeSort_of_pairwise (by decide)
  have hproper : largeRows.filter (fun r => !r.1.isEmpty && r.2 != 0) = largeRows := by
    with_unfolding_all rfl
  rw [Simplify.ofCoefficients, hproper, hsorted]
  with_unfolding_all rfl

theorem antiderivativeDifference_largePower :
    antiderivativeDifference "Q" (Poly.x.pow (2 ^ 32)) (.const 1) (.const (-1)) =
      largeIntegral := by
  have hlower : simplify (((Poly.x.pow (2 ^ 32)).integral.toExpr "Q").substitute "Q" (.const 1)) =
      .mul (.const largeCoefficient) (largeFactor 1) :=
    simplify_eq_of_step (by with_unfolding_all rfl) (by with_unfolding_all rfl)
  have hupper :
      simplify (((Poly.x.pow (2 ^ 32)).integral.toExpr "Q").substitute "Q" (.const (-1))) =
        .mul (.const largeCoefficient) (largeFactor (-1)) :=
    simplify_eq_of_step (by with_unfolding_all rfl) (by with_unfolding_all rfl)
  rw [antiderivativeDifference, hlower, hupper]
  refine simplify_eq_of_step ?_ ?_ <;>
    refine Eq.trans (congrArg Simplify.ofCoefficients ?_) ofCoefficients_largeRows
  · with_unfolding_all rfl
  · with_unfolding_all rfl

/-- A rational that is too close to one to be told apart. -/
def nearOne : Rat := 1 + 1 / 2 ^ 60

/-- From one to a bound close to it the integral of one is taken to be zero.  The integral of a
power of the degree `2 ^ 32` from `1` to `-1` is not a constant. -/
theorem polynomial_integral_is_not_constant :
    (Poly.ofExpr? "Q" .one = some .one ∧
      definiteIntegral "Q" .one (.const 1) (.const nearOne) = .ok .zero ∧
      Poly.one.integral.eval nearOne - Poly.one.integral.eval 1 ≠ 0) ∧
    Poly.ofExpr? "Q" largePower = some (Poly.x.pow (2 ^ 32)) ∧
    ∀ v, definiteIntegral "Q" largePower (.const 1) (.const (-1)) = .ok v →
      v.constant? = none := by
  have hp : Poly.ofExpr? "Q" largePower = some (Poly.x.pow (2 ^ 32)) := by with_unfolding_all decide
  refine ⟨⟨by with_unfolding_all decide, ?_, by with_unfolding_all decide⟩, hp, fun v h => ?_⟩
  case refine_1 =>
    have hone : (Expr.const 1).evaluate = .ok (Binary64.ofRat 1) :=
      evaluate_const_eq_ok_iff.2 ⟨by decide, rfl⟩
    have hnear : (Expr.const nearOne).evaluate = .ok (Binary64.ofRat nearOne) :=
      evaluate_const_eq_ok_iff.2 ⟨by with_unfolding_all rfl, rfl⟩
    have hbeq : (Binary64.ofRat 1 == Binary64.ofRat nearOne) = true := by with_unfolding_all rfl
    rw [definiteIntegral, hone, hnear]
    exact if_pos hbeq
  case refine_2 =>
    rw [definiteIntegral_eq hp, antiderivativeDifference_largePower] at h
    obtain ⟨fa, ha, h⟩ := bind_eq_ok_iff.1 h
    obtain ⟨fb, hb, h⟩ := bind_eq_ok_iff.1 h
    obtain ⟨-, rfl⟩ := evaluate_const_eq_ok_iff.1 ha
    obtain ⟨-, rfl⟩ := evaluate_const_eq_ok_iff.1 hb
    rw [if_neg (by decide)] at h
    obtain ⟨_, -, h⟩ := bind_eq_ok_iff.1 h
    obtain ⟨_, -, h⟩ := bind_eq_ok_iff.1 h
    obtain rfl := Except.ok.inj h
    rfl

end MarketAlgebra
