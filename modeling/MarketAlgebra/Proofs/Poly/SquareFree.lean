import Mathlib.Analysis.Complex.Polynomial.Basic
import Mathlib.RingTheory.Polynomial.Radical
import Mathlib.RingTheory.SimpleRing.Principal
import MarketAlgebra.Proofs.Poly.Division
import MarketAlgebra.Roots.Real

/-!
# The square-free part as a radical

The square-free part has every irreducible factor of the polynomial once.  It has no square factor,
so it divides the radical.  Conversely, over the rationals the derivative has every factor once less
than the polynomial (`not_pow_dvd_derivative`), so no factor is lost in the quotient by the greatest
common divisor with the derivative (`irreducible_dvd_quotient`).  Up to a unit the square-free part
is therefore the radical (`associated_radical`).

Being monic, it is determined by these factors (`squareFreePart_eq_of_radical_eq`).  So the
multiples of a polynomial and of its powers by rationals other than zero have its square-free part,
and the roots that are listed are found on the square-free part alone
(`squareFreePart_is_canonical`).
-/

namespace MarketAlgebra.Poly

open Polynomial UniqueFactorizationMonoid

variable {p q : Poly}

/-! ## Irreducible factors -/

/-- The derivative has an irreducible factor once less than the polynomial. -/
theorem not_pow_dvd_derivative {r s : ℚ[X]} (hr : Irreducible r) (hrs : ¬r ∣ s) (m : ℕ) :
    ¬r ^ (m + 1) ∣ Polynomial.derivative (r ^ (m + 1) * s) := by
  intro hdvd
  rw [Polynomial.derivative_mul, derivative_pow_succ, dvd_add_left (dvd_mul_right _ _)] at hdvd
  have hunit : IsUnit (C ((m : ℚ) + 1)) := isUnit_C.2 (Nat.cast_add_one_ne_zero m).isUnit
  have hfactor : r ^ m * r ∣ r ^ m * (C ((m : ℚ) + 1) * s * Polynomial.derivative r) := by
    rw [← pow_succ]
    convert hdvd using 1
    ring
  have hcancel := (mul_dvd_mul_iff_left (pow_ne_zero m hr.ne_zero)).1 hfactor
  have hsplit := hr.separable.dvd_of_dvd_mul_right hcancel
  exact hrs (hunit.dvd_mul_left.1 hsplit)

/-- An irreducible factor is left in the quotient by a common divisor with the derivative. -/
theorem irreducible_dvd_quotient {f g h r : ℚ[X]} (hf : f ≠ 0) (hfg : f = h * g)
    (hg : g ∣ Polynomial.derivative f) (hr : Irreducible r) (hrf : r ∣ f) : r ∣ h := by
  have hfinite : FiniteMultiplicity r f := .of_not_isUnit hr.not_isUnit hf
  obtain ⟨s, hs, hrs⟩ := hfinite.exists_eq_pow_mul_and_not_dvd
  obtain ⟨m, hm⟩ : ∃ m, multiplicity r f = m + 1 :=
    Nat.exists_eq_add_one_of_ne_zero (mt multiplicity_eq_zero.1 (not_not.2 hrf))
  rw [hm] at hs
  by_contra hrh
  have hpow : r ^ (m + 1) ∣ h * g := by
    rw [← hfg, hs]
    exact dvd_mul_right _ _
  have hderivative := (hr.prime.pow_dvd_of_dvd_mul_left _ hrh hpow).trans hg
  rw [hs] at hderivative
  exact not_pow_dvd_derivative hr hrs m hderivative

/-- The square-free part of a polynomial that is not constant is its radical. -/
theorem associated_radical (h : 1 < p.size) :
    Associated p.squareFreePart.toPolynomial (radical p.toPolynomial) := by
  have hp : p.toPolynomial ≠ 0 := mt size_eq_zero.2 (by omega)
  obtain ⟨q, hmul, hassoc⟩ := squareFreePart_spec h
  have hq : Squarefree q.toPolynomial := hassoc.squarefree_iff.1 (squarefree_squareFreePart h)
  have hderivative : (gcd p p.derivative).toPolynomial ∣ Polynomial.derivative p.toPolynomial := by
    rw [← toPolynomial_derivative]
    exact gcd_dvd_right p p.derivative
  refine hassoc.trans (associated_of_dvd_dvd ?_ ?_)
  · rw [dvd_radical_iff hq.isRadical hp, hmul]
    exact dvd_mul_right _ _
  · rw [radical_dvd_iff_primeFactors_subset hq.ne_zero]
    intro r hr
    rw [mem_primeFactors, mem_normalizedFactors_iff' hp] at hr
    rw [mem_primeFactors, mem_normalizedFactors_iff' hq.ne_zero]
    exact ⟨hr.1, hr.2.1, irreducible_dvd_quotient hp hmul hderivative hr.1 hr.2.2⟩

/-! ## Uniqueness -/

theorem monic_squareFreePart (h : 1 < p.size) : p.squareFreePart.toPolynomial.Monic := by
  obtain ⟨q, hq, hmonic⟩ := exists_divExact?_eq h
  rw [hmonic]
  refine monic_toPolynomial_monic fun hz => ?_
  have hp := eq_mul_of_divExact? hq
  rw [hz, zero_mul, ← size_eq_zero] at hp
  omega

/-- Polynomials with the same irreducible factors have the same square-free part. -/
theorem squareFreePart_eq_of_radical_eq (hp : 1 < p.size) (hq : 1 < q.size)
    (h : radical p.toPolynomial = radical q.toPolynomial) :
    p.squareFreePart = q.squareFreePart := by
  refine toPolynomial_injective (eq_of_monic_of_associated (monic_squareFreePart hp)
    (monic_squareFreePart hq) ?_)
  exact (associated_radical hp).trans (h ▸ (associated_radical hq).symm)

/-- What makes a polynomial the square-free part of another one: it is monic, it has no factor in
common with its derivative, it divides the other one, and the other one divides a power of it. -/
structure IsSquareFreePart (q p : Poly) : Prop where
  leading_eq_one : q.leading = 1
  isCoprime : IsCoprime q.toPolynomial q.derivative.toPolynomial
  dvd : q.toPolynomial ∣ p.toPolynomial
  dvd_pow : ∃ n : ℕ, p.toPolynomial ∣ q.toPolynomial ^ n

theorem isSquareFreePart_squareFreePart (h : 1 < p.size) : IsSquareFreePart p.squareFreePart p := by
  have hp : p.toPolynomial ≠ 0 := mt size_eq_zero.2 (by omega)
  have hassoc := associated_radical h
  refine ⟨?_, ?_, hassoc.dvd.trans radical_dvd_self, ?_⟩
  · rw [leading_eq]
    exact monic_squareFreePart h
  · rw [toPolynomial_derivative]
    exact separable_squareFreePart h
  · obtain ⟨n, hn⟩ := exists_dvd_radical_self_pow hp
    rw [← (hassoc.pow_pow (n := n)).dvd_iff_dvd_right] at hn
    exact ⟨n, hn⟩

/-- There is no other one. -/
theorem IsSquareFreePart.eq (hq : IsSquareFreePart q p) (h : 1 < p.size) :
    q = p.squareFreePart := by
  have hp : p.toPolynomial ≠ 0 := mt size_eq_zero.2 (by omega)
  have hmonic : q.toPolynomial.Monic := by
    rw [Monic, ← leading_eq, hq.leading_eq_one]
  have hcoprime := hq.isCoprime
  rw [toPolynomial_derivative] at hcoprime
  have hsquarefree : Squarefree q.toPolynomial := Separable.squarefree hcoprime
  obtain ⟨n, hn⟩ := hq.dvd_pow
  have hassoc : Associated q.toPolynomial (radical p.toPolynomial) :=
    associated_of_dvd_dvd ((dvd_radical_iff hsquarefree.isRadical hp).2 hq.dvd)
      ((exists_dvd_pow_iff_radical_dvd hp).1 ⟨n, hn⟩)
  exact toPolynomial_injective (eq_of_monic_of_associated hmonic (monic_squareFreePart h)
    (hassoc.trans (associated_radical h).symm))

/-! ## Roots -/

/-- A polynomial and its square-free part have the same complex roots. -/
theorem IsSquareFreePart.aeval_eq_zero_iff (hq : IsSquareFreePart q p) (a : ℂ) :
    aeval a q.toPolynomial = 0 ↔ aeval a p.toPolynomial = 0 := by
  constructor
  · intro ha
    exact eq_zero_of_zero_dvd (ha ▸ map_dvd (aeval a) hq.dvd)
  · intro ha
    obtain ⟨n, hn⟩ := hq.dvd_pow
    have hpow := map_dvd (aeval a) hn
    rw [ha, zero_dvd_iff, map_pow] at hpow
    exact eq_zero_of_pow_eq_zero hpow

/-- Every root of the square-free part is simple. -/
theorem IsSquareFreePart.aeval_derivative_ne_zero (hq : IsSquareFreePart q p) {a : ℂ}
    (ha : aeval a q.toPolynomial = 0) : aeval a q.derivative.toPolynomial ≠ 0 := by
  have hcoprime := hq.isCoprime
  rw [toPolynomial_derivative] at hcoprime ⊢
  exact Separable.aeval_derivative_ne_zero hcoprime ha

/-! ## Scaled powers -/

theorem one_lt_size_iff : 1 < p.size ↔ 0 < p.toPolynomial.natDegree := by
  by_cases hp : p.toPolynomial = 0
  · rw [size_eq_zero.2 hp, hp, natDegree_zero]
    omega
  · rw [size_eq hp]
    omega

/-- A factor other than zero and an exponent do not change the square-free part. -/
theorem squareFreePart_of_eq_pow (h : 1 < p.size) {c : Rat} (hc : c ≠ 0) {k : ℕ} (hk : 1 ≤ k)
    (hq : q.toPolynomial = C c * p.toPolynomial ^ k) : q.squareFreePart = p.squareFreePart := by
  have hsize : 1 < q.size := by
    rw [one_lt_size_iff] at h ⊢
    rw [hq, natDegree_C_mul hc, natDegree_pow]
    exact Nat.mul_pos hk h
  refine squareFreePart_eq_of_radical_eq hsize h ?_
  rw [hq, radical_mul_of_isUnit_left (isUnit_C.2 hc.isUnit), radical_pow _ (by omega)]

/-- The list of roots depends on the square-free part only. -/
theorem realRoots_congr (h : p.squareFreePart = q.squareFreePart) :
    Roots.realRoots p = Roots.realRoots q := by
  rw [Roots.realRoots, Roots.realRoots, h]

/-- The square-free part of a polynomial that is not constant is monic, coprime to its derivative,
divides the polynomial and has a power that the polynomial divides, and it is the only such
polynomial.  It comes out of an exact division, its complex roots are those of the polynomial, and
each of them is simple.  Every power of the polynomial with any factor other than zero has the same
square-free part and the same list of roots. -/
theorem squareFreePart_is_canonical (h : 0 < p.toPolynomial.natDegree) :
    IsSquareFreePart p.squareFreePart p ∧
    (∀ q, IsSquareFreePart q p → q = p.squareFreePart) ∧
    (∃ q, p.divExact? (gcd p p.derivative) = some q ∧ p.squareFreePart = q.monic) ∧
    (∀ a : ℂ, aeval a p.squareFreePart.toPolynomial = 0 ↔ aeval a p.toPolynomial = 0) ∧
    (∀ a : ℂ, aeval a p.squareFreePart.toPolynomial = 0 →
      aeval a p.squareFreePart.derivative.toPolynomial ≠ 0) ∧
    ∀ c : Rat, c ≠ 0 → ∀ k, 1 ≤ k → ∀ q : Poly, q.toPolynomial = C c * p.toPolynomial ^ k →
      q.squareFreePart = p.squareFreePart ∧ Roots.realRoots q = Roots.realRoots p := by
  rw [← one_lt_size_iff] at h
  have hpart := isSquareFreePart_squareFreePart h
  refine ⟨hpart, fun q hq => hq.eq h, exists_divExact?_eq h, hpart.aeval_eq_zero_iff,
    fun a ha => hpart.aeval_derivative_ne_zero ha, fun c hc k hk q hq => ?_⟩
  have hsame := squareFreePart_of_eq_pow h hc hk hq
  exact ⟨hsame, realRoots_congr hsame⟩

/-- The square-free part of `-1/3 * ((x - 2) ^ 2 * (x + 3)) ^ 2` is `(x - 2) * (x + 3)`. -/
theorem squareFreePart_is_canonical_of_cubic :
    let p : Poly := (x - const 2).pow 2 * (x + const 3)
    0 < p.toPolynomial.natDegree ∧
      (scale (-1 / 3) (p.pow 2)).toPolynomial = C (-1 / 3) * p.toPolynomial ^ 2 ∧
      (scale (-1 / 3) (p.pow 2)).squareFreePart = (x - const 2) * (x + const 3) ∧
      Roots.realRoots (scale (-1 / 3) (p.pow 2)) = Roots.realRoots p := by
  intro p
  have h : 0 < p.toPolynomial.natDegree := one_lt_size_iff.1 (by with_unfolding_all decide)
  have hpower : (scale (-1 / 3) (p.pow 2)).toPolynomial = C (-1 / 3) * p.toPolynomial ^ 2 := by
    rw [toPolynomial_scale, toPolynomial_pow_of_lt (by with_unfolding_all decide)]
  have hpart : p.squareFreePart = (x - const 2) * (x + const 3) := by with_unfolding_all decide
  obtain ⟨-, -, -, -, -, hsame⟩ := squareFreePart_is_canonical h
  obtain ⟨hscaled, hroots⟩ := hsame (-1 / 3) (by norm_num) 2 (by norm_num) _ hpower
  exact ⟨h, hpower, hscaled.trans hpart, hroots⟩

end MarketAlgebra.Poly
