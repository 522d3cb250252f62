import Mathlib.Algebra.Polynomial.FieldDivision
import Mathlib.FieldTheory.Perfect
import Mathlib.RingTheory.Multiplicity
import MarketAlgebra.Poly.Division
import MarketAlgebra.Proofs.Poly.Ring

/-!
# Division of polynomials

`divMod` is division with remainder (`divMod_spec` and `degree_divMod_lt`), `divExact?` finds a
quotient exactly when there is one, and the divisors of `gcd p q` are the common divisors of `p` and
`q` (`dvd_gcd_iff`).

The square-free part is the quotient by the greatest common divisor with the derivative.  A square
that divided it would divide the polynomial once more than its power divides the greatest common
divisor, and so that divisor as well (`squarefree_of_mul_gcd`).
-/

namespace MarketAlgebra.Poly

open Polynomial

variable {p q d : Poly}

/-! ## Division with remainder -/

theorem reductum_eq (h : p.toPolynomial ≠ 0) : p.reductum.toPolynomial =
    p.toPolynomial - Polynomial.monomial (p.size - 1) p.leading := by
  cases hts : p.terms with
  | nil => exact absurd (toPolynomial_eq_zero_iff.2 hts) h
  | cons t ts =>
    rw [toPolynomial_of_terms hts, size, leading, hts]
    simp

section

variable (hd : d.size ≠ 0) (h : d.size ≤ p.size)
include hd h

/-- The exponent of the term that cancels the leading one is a word. -/
theorem size_sub_lt_wordSize : p.size - d.size < wordSize := by
  have := size_le_wordSize p
  omega

/-- The term that cancels the leading one leaves nothing of it behind. -/
theorem toPolynomial_sub_leading :
    (p.reductum - timesTerm (p.size - d.size) (p.leading / d.leading) d.reductum).toPolynomial =
      p.toPolynomial -
        Polynomial.monomial (p.size - d.size) (p.leading / d.leading) * d.toPolynomial := by
  have hd' : d.toPolynomial ≠ 0 := mt size_eq_zero.2 hd
  have hp : p.toPolynomial ≠ 0 := mt size_eq_zero.2 (by omega)
  have hlead : d.leading ≠ 0 := by
    rw [leading_eq]
    exact leadingCoeff_ne_zero.2 hd'
  have hterm : Polynomial.monomial (p.size - d.size) (p.leading / d.leading) *
      Polynomial.monomial (d.size - 1) d.leading =
        Polynomial.monomial (p.size - 1) p.leading := by
    rw [monomial_mul_monomial, div_mul_cancel₀ _ hlead,
      show p.size - d.size + (d.size - 1) = p.size - 1 by omega]
  have hsize : d.reductum.size + (p.size - d.size) ≤ wordSize := by
    have := size_reductum_lt hd
    have := size_le_wordSize p
    omega
  rw [toPolynomial_sub, toPolynomial_timesTerm_of_size_le hsize, reductum_eq hp, reductum_eq hd',
    mul_sub, hterm]
  ring

theorem toPolynomial_leading_mul :
    (monomial (p.size - d.size) (p.leading / d.leading) * d).toPolynomial =
      Polynomial.monomial (p.size - d.size) (p.leading / d.leading) * d.toPolynomial := by
  have hsize : (monomial (p.size - d.size) (p.leading / d.leading)).size + d.size ≤
      wordSize + 1 := by
    have := size_monomial_le (p.size - d.size) (p.leading / d.leading)
    have := size_le_wordSize p
    omega
  rw [toPolynomial_mul_of_size_le hsize, toPolynomial_monomial_of_lt (size_sub_lt_wordSize hd h)]

/-- The product with that term is subtracted without the leading terms. -/
theorem sub_leading_mul :
    p - monomial (p.size - d.size) (p.leading / d.leading) * d =
      p.reductum - timesTerm (p.size - d.size) (p.leading / d.leading) d.reductum := by
  apply toPolynomial_injective
  rw [toPolynomial_sub, toPolynomial_leading_mul hd h, toPolynomial_sub_leading hd h]

end

/-- The quotient times the divisor, plus the remainder. -/
theorem divMod_spec (p d : Poly) : (divMod p d).1.toPolynomial * d.toPolynomial +
    (divMod p d).2.toPolynomial = p.toPolynomial := by
  fun_induction divMod p d with
  | case1 p h => simp
  | case2 p h n c r hr q s heq ih =>
    rw [not_or, Nat.not_lt] at h
    have hrest : r.toPolynomial = p.toPolynomial - Polynomial.monomial n c * d.toPolynomial :=
      toPolynomial_sub_leading h.1 h.2
    rw [heq] at ih
    rw [toPolynomial_add, toPolynomial_monomial_of_lt (size_sub_lt_wordSize h.1 h.2), add_mul,
      add_assoc, ih, hrest]
    ring

/-- The quotient is not larger than what is divided. -/
theorem size_divMod_fst_le (p d : Poly) : (divMod p d).1.size ≤ p.size := by
  fun_induction divMod p d with
  | case1 p h => exact Nat.zero_le _
  | case2 p h n c r hr q s heq ih =>
    rw [heq] at ih
    have hterm := size_monomial_le n c
    exact size_add_le (by omega) (by simp only at ih; omega)

/-- The remainder has a smaller degree than the divisor. -/
theorem degree_divMod_lt (p : Poly) (hd : d.toPolynomial ≠ 0) :
    (divMod p d).2.toPolynomial.degree < d.toPolynomial.degree := by
  rw [← size_lt_size_iff hd]
  exact size_divMod_lt p (mt size_eq_zero.1 hd)

/-- A divisor leaves no remainder. -/
theorem divMod_snd_eq_zero_iff (hd : d.toPolynomial ≠ 0) :
    (divMod p d).2.toPolynomial = 0 ↔ d.toPolynomial ∣ p.toPolynomial := by
  have hspec := divMod_spec p d
  constructor
  · intro h
    rw [h, add_zero] at hspec
    exact ⟨_, by rw [← hspec, mul_comm]⟩
  · intro h
    by_contra hne
    have hdvd : d.toPolynomial ∣ (divMod p d).2.toPolynomial := by
      rw [← hspec] at h
      exact (dvd_add_right (dvd_mul_left _ _)).1 h
    exact absurd (degree_le_of_dvd hdvd hne) (not_le.2 (degree_divMod_lt p hd))

/-- What an exact division returns is the quotient. -/
theorem eq_mul_of_divExact? (h : p.divExact? d = some q) :
    p.toPolynomial = q.toPolynomial * d.toPolynomial := by
  simp only [divExact?, Option.ite_none_right_eq_some, isZero_iff, Option.some.injEq] at h
  rw [← divMod_spec p d, h.1, add_zero, h.2]

theorem size_le_of_divExact? (h : p.divExact? d = some q) : q.size ≤ p.size := by
  simp only [divExact?, Option.ite_none_right_eq_some, Option.some.injEq] at h
  exact h.2 ▸ size_divMod_fst_le p d

/-- A division by a divisor is exact. -/
theorem divExact?_of_dvd (hd : d.toPolynomial ≠ 0) (h : d.toPolynomial ∣ p.toPolynomial) :
    ∃ q, p.divExact? d = some q ∧ p.toPolynomial = q.toPolynomial * d.toPolynomial := by
  have hsome : p.divExact? d = some (divMod p d).1 := by
    simp only [divExact?]
    rw [if_pos (isZero_iff.2 ((divMod_snd_eq_zero_iff hd).2 h))]
  exact ⟨_, hsome, eq_mul_of_divExact? hsome⟩

/-! ## Greatest common divisors -/

/-- The divisors of the greatest common divisor are the common divisors. -/
theorem dvd_gcd_iff (p q : Poly) (c : ℚ[X]) :
    c ∣ (gcd p q).toPolynomial ↔ c ∣ p.toPolynomial ∧ c ∣ q.toPolynomial := by
  fun_induction gcd p q with
  | case1 p q h =>
    rw [(associated_monic p).dvd_iff_dvd_right, size_eq_zero.1 h]
    simp
  | case2 p q h _ ih =>
    rw [ih, and_comm, ← divMod_spec p q]
    refine and_congr_left fun hq => ?_
    rw [dvd_add_right (hq.mul_left _)]

theorem gcd_dvd_left (p q : Poly) : (gcd p q).toPolynomial ∣ p.toPolynomial :=
  ((dvd_gcd_iff p q _).1 dvd_rfl).1

theorem gcd_dvd_right (p q : Poly) : (gcd p q).toPolynomial ∣ q.toPolynomial :=
  ((dvd_gcd_iff p q _).1 dvd_rfl).2

theorem gcd_ne_zero (h : p.toPolynomial ≠ 0) (q : Poly) : (gcd p q).toPolynomial ≠ 0 := by
  intro hz
  have hdvd := gcd_dvd_left p q
  rw [hz, zero_dvd_iff] at hdvd
  exact h hdvd

/-- Only two zero polynomials have a greatest common divisor that is not monic. -/
theorem monic_gcd (h : p.toPolynomial ≠ 0 ∨ q.toPolynomial ≠ 0) :
    (gcd p q).toPolynomial.Monic := by
  fun_induction gcd p q with
  | case1 p q hq =>
    exact monic_toPolynomial_monic (h.resolve_right (not_not.2 (size_eq_zero.1 hq)))
  | case2 p q hq _ ih => exact ih (.inl (mt size_eq_zero.2 hq))

/-- The greatest common divisor of polynomials without a common factor. -/
theorem gcd_eq_one (h : IsCoprime p.toPolynomial q.toPolynomial) : gcd p q = .one := by
  have hunit := h.isUnit_of_dvd' (gcd_dvd_left p q) (gcd_dvd_right p q)
  have hne : p.toPolynomial ≠ 0 ∨ q.toPolynomial ≠ 0 := by
    by_contra hzero
    rw [not_or, not_not, not_not] at hzero
    rw [hzero.1, hzero.2] at h
    exact not_isCoprime_zero_zero h
  apply toPolynomial_injective
  rw [(monic_gcd hne).eq_one_of_isUnit hunit, toPolynomial_one]

/-! ## Square-free parts -/

/-- A power of a polynomial divides the derivative of the next one. -/
theorem pow_dvd_derivative {f g : ℚ[X]} {k : ℕ} (h : g ^ (k + 1) ∣ f) :
    g ^ k ∣ Polynomial.derivative f := by
  obtain ⟨c, rfl⟩ := h
  rw [Polynomial.derivative_mul, Polynomial.derivative_pow, Nat.add_sub_cancel]
  refine dvd_add ?_ ?_
  · exact ((dvd_mul_left _ _).mul_right _).mul_right _
  · exact (pow_dvd_pow g (Nat.le_succ k)).mul_right _

/-- What is left without the greatest common divisor with the derivative has no square factor. -/
theorem squarefree_of_mul_gcd {f g h : ℚ[X]} (hf : f ≠ 0) (hfg : f = h * g)
    (hg : ∀ c, c ∣ f → c ∣ Polynomial.derivative f → c ∣ g) : Squarefree h := by
  intro c hc
  by_contra hunit
  have hg0 : g ≠ 0 := by
    rintro rfl
    exact hf (by rw [hfg, mul_zero])
  have hfinite : FiniteMultiplicity c g := FiniteMultiplicity.of_not_isUnit hunit hg0
  have hdvd : c ^ (multiplicity c g + 2) ∣ f := by
    rw [hfg, pow_add, mul_comm, sq]
    exact mul_dvd_mul hc (pow_multiplicity_dvd c g)
  have hnext : c ^ (multiplicity c g + 1) ∣ g :=
    hg _ ((pow_dvd_pow c (Nat.le_succ _)).trans hdvd) (pow_dvd_derivative hdvd)
  exact hfinite.not_pow_dvd_of_multiplicity_lt (Nat.lt_succ_self _) hnext

/-- The division by the greatest common divisor with the derivative is exact. -/
theorem exists_divExact?_eq (h : 1 < p.size) :
    ∃ q, p.divExact? (gcd p p.derivative) = some q ∧ p.squareFreePart = q.monic := by
  have hp : p.toPolynomial ≠ 0 := mt size_eq_zero.2 (by omega)
  obtain ⟨q, hq, -⟩ :=
    divExact?_of_dvd (gcd_ne_zero hp p.derivative) (gcd_dvd_left p p.derivative)
  refine ⟨q, hq, ?_⟩
  rw [squareFreePart, if_neg (by omega), hq, Option.getD_some]

/-- The square-free part is a unit times the quotient by the greatest common divisor with the
derivative. -/
theorem squareFreePart_spec (h : 1 < p.size) : ∃ q : Poly,
    p.toPolynomial = q.toPolynomial * (gcd p p.derivative).toPolynomial ∧
      Associated p.squareFreePart.toPolynomial q.toPolynomial := by
  obtain ⟨q, hq, hmonic⟩ := exists_divExact?_eq h
  refine ⟨q, eq_mul_of_divExact? hq, ?_⟩
  rw [hmonic]
  exact associated_monic q

/-- The square-free part has no square factor. -/
theorem squarefree_squareFreePart (h : 1 < p.size) : Squarefree p.squareFreePart.toPolynomial := by
  have hp : p.toPolynomial ≠ 0 := mt size_eq_zero.2 (by omega)
  obtain ⟨q, hmul, hassoc⟩ := squareFreePart_spec h
  rw [hassoc.squarefree_iff]
  refine squarefree_of_mul_gcd hp hmul fun c hc hc' => ?_
  rw [dvd_gcd_iff, toPolynomial_derivative]
  exact ⟨hc, hc'⟩

/-- Over the rationals that makes it separable: it has no root in common with its derivative. -/
theorem separable_squareFreePart (h : 1 < p.size) : p.squareFreePart.toPolynomial.Separable :=
  PerfectField.separable_iff_squarefree.2 (squarefree_squareFreePart h)

/-- A root of a polynomial is a root of its quotient by a common divisor with the derivative. -/
theorem isRoot_of_dvd_derivative {K : Type*} [Field K] [CharZero K] {f g h : K[X]} (hf : f ≠ 0)
    (hfg : f = h * g) (hg : g ∣ Polynomial.derivative f) {x : K} (hx : f.IsRoot x) :
    h.IsRoot x := by
  have hderiv : Polynomial.derivative f ≠ 0 := by
    intro hz
    have hconst := eq_C_of_natDegree_eq_zero (Polynomial.derivative_eq_zero.1 hz)
    rw [hconst, IsRoot.def, eval_C] at hx
    rw [hx, map_zero] at hconst
    exact hf hconst
  have hmult : 0 < f.rootMultiplicity x := (rootMultiplicity_pos hf).2 hx
  have hless : g.rootMultiplicity x ≤ f.rootMultiplicity x - 1 := by
    rw [← derivative_rootMultiplicity_of_root hx]
    exact rootMultiplicity_le_rootMultiplicity_of_dvd hderiv hg x
  have hh : h ≠ 0 := by
    rintro rfl
    exact hf (by rw [hfg, zero_mul])
  rw [← rootMultiplicity_pos hh]
  have hsum : f.rootMultiplicity x = h.rootMultiplicity x + g.rootMultiplicity x := by
    conv_lhs => rw [hfg]
    exact rootMultiplicity_mul (hfg ▸ hf)
  omega

end MarketAlgebra.Poly
