import Mathlib.Algebra.Polynomial.Reverse
import Mathlib.RingTheory.Polynomial.GaussLemma
import MarketAlgebra.Proofs.Poly.Content

/-!
# The primitive part as a polynomial over the integers

The list of the primitive part holds the coefficients of a polynomial over the integers
(`primitive`).  The content times this polynomial is the polynomial itself
(`toPolynomial_eq_content_mul`), and no integer but a unit divides all of its coefficients
(`isPrimitive_primitive`).  So by Gauss's lemma a primitive polynomial that divides the polynomial
over the rationals divides the primitive part over the integers (`dvd_primitive_iff`).

The search for rational roots leaves out the zeros at the start of the list and then reads its first
and its last entry.  These are the trailing and the leading coefficient
(`head?_dropWhile_primitive` and `getLast?_dropWhile_primitive`).
-/

namespace MarketAlgebra.Poly

open Polynomial

variable {p : Poly}

/-! ## The polynomial -/

/-- The primitive part as a polynomial with integer coefficients. -/
noncomputable def primitive (p : Poly) : ℤ[X] :=
  ∑ i ∈ Finset.range p.size, Polynomial.monomial i (p.contentAndPrimitive.2.getD i 0)

theorem coeff_primitive (p : Poly) (n : Nat) :
    p.primitive.coeff n = p.contentAndPrimitive.2.getD n 0 := by
  rw [primitive, finsetSum_coeff]
  simp only [Polynomial.coeff_monomial, Finset.sum_ite_eq', Finset.mem_range]
  split
  · rfl
  · rw [List.getD_eq_getElem?_getD, List.getElem?_eq_none (by rw [length_primitive]; omega)]
    rfl

/-- A polynomial is its content times its primitive part. -/
theorem toPolynomial_eq_content_mul (p : Poly) : p.toPolynomial =
    C p.contentAndPrimitive.1 * p.primitive.map (Int.castRingHom ℚ) := by
  ext n
  rw [coeff_C_mul, coeff_map, coeff_primitive, ← coeff_eq, coeff_eq_content_mul]
  rfl

theorem primitive_ne_zero (hp : p.toPolynomial ≠ 0) : p.primitive ≠ 0 := by
  intro hz
  exact hp (by rw [toPolynomial_eq_content_mul, hz, Polynomial.map_zero, mul_zero])

theorem natDegree_primitive (hp : p.toPolynomial ≠ 0) :
    p.primitive.natDegree = p.toPolynomial.natDegree := by
  rw [toPolynomial_eq_content_mul, natDegree_C_mul (content_ne_zero hp),
    natDegree_map_eq_of_injective (Int.castRingHom ℚ).injective_int]

/-! ## No common factor is left -/

/-- A common divisor of the elements divides their greatest common divisor. -/
theorem dvd_foldl_gcd {cs : List Int} {d e : Int} (he : d ∣ e) (h : ∀ c ∈ cs, d ∣ c) :
    d ∣ cs.foldl (fun g c => (g.gcd c.natAbs : Int)) e := by
  induction cs generalizing e with
  | nil => exact he
  | cons c cs ih =>
    obtain ⟨hc, hcs⟩ := List.forall_mem_cons.1 h
    exact ih (Int.dvd_coe_gcd he (Int.dvd_natAbs.2 hc)) hcs

theorem dvd_signedDivisor {d : Int} (h : ∀ c ∈ p.integerCoeffs, d ∣ c) : d ∣ p.signedDivisor := by
  have hdvd := dvd_foldl_gcd (dvd_zero d) h
  rw [signedDivisor]
  split
  · exact Int.dvd_neg.2 hdvd
  · exact hdvd

/-- The primitive part is primitive: a common divisor of its coefficients, multiplied by the divisor
that has been taken out, would still divide all integer coefficients. -/
theorem isPrimitive_primitive (hp : p.toPolynomial ≠ 0) : p.primitive.IsPrimitive := by
  rw [isPrimitive_iff_isUnit_of_C_dvd]
  intro d hd
  rw [C_dvd_iff_dvd_coeff] at hd
  have hmul : p.signedDivisor * d ∣ p.signedDivisor := by
    refine dvd_signedDivisor fun c hc => ?_
    obtain ⟨n, hn, rfl⟩ := List.getElem_of_mem hc
    have hcoeff := hd n
    rw [coeff_primitive, contentAndPrimitive_eq, List.getD_eq_getElem?_getD, List.getElem?_map,
      List.getElem?_eq_getElem hn, Option.map_some, Option.getD_some] at hcoeff
    rw [← Int.mul_ediv_cancel' (signedDivisor_dvd hc)]
    exact mul_dvd_mul_left _ hcoeff
  have hone : p.signedDivisor * d ∣ p.signedDivisor * 1 := by rwa [mul_one]
  exact isUnit_of_dvd_one ((mul_dvd_mul_iff_left (signedDivisor_ne_zero hp)).1 hone)

/-- Gauss's lemma. -/
theorem dvd_primitive_iff (hp : p.toPolynomial ≠ 0) {f : ℤ[X]} (hf : f.IsPrimitive) :
    f ∣ p.primitive ↔ f.map (Int.castRingHom ℚ) ∣ p.toPolynomial := by
  have hunit : IsUnit (C p.contentAndPrimitive.1) := isUnit_C.2 (content_ne_zero hp).isUnit
  rw [IsPrimitive.Int.dvd_iff_map_cast_dvd_map_cast _ _ hf, toPolynomial_eq_content_mul p,
    hunit.dvd_mul_left]

/-! ## The trailing and the leading coefficient -/

theorem trailingCoeff_X : (X : ℤ[X]).trailingCoeff = 1 := by
  rw [← monomial_one_one_eq_X, trailingCoeff, natTrailingDegree_monomial one_ne_zero,
    coeff_monomial_same]

/-- Without the zeros at the start, a list of coefficients starts with the trailing one. -/
theorem head?_dropWhile_eq_trailingCoeff {cs : List Int} {f : ℤ[X]}
    (h : ∀ n, f.coeff n = cs.getD n 0) (hf : f ≠ 0) :
    (cs.dropWhile (· == 0)).head? = some f.trailingCoeff := by
  induction cs generalizing f with
  | nil => exact absurd (Polynomial.ext h) hf
  | cons c cs ih =>
    have hzero : f.coeff 0 = c := h 0
    by_cases hc : c = 0
    · have hshift : f = f.divX * X := by
        conv_lhs => rw [← divX_mul_X_add f, hzero, hc, map_zero, add_zero]
      have hrest : ∀ n, f.divX.coeff n = cs.getD n 0 := by
        intro n
        rw [coeff_divX, h, List.getD_cons_succ]
      have hne : f.divX ≠ 0 := left_ne_zero_of_mul (hshift ▸ hf)
      rw [hc, List.dropWhile_cons_of_pos (by rfl), ih hrest hne, hshift, trailingCoeff_mul,
        trailingCoeff_X, mul_one, ← hshift]
    · rw [List.dropWhile_cons_of_neg (by simpa using hc), List.head?_cons,
        trailingCoeff_eq_coeff_zero (by rwa [hzero]), hzero]

theorem head?_dropWhile_primitive (hp : p.toPolynomial ≠ 0) :
    (p.contentAndPrimitive.2.dropWhile (· == 0)).head? = some p.primitive.trailingCoeff :=
  head?_dropWhile_eq_trailingCoeff p.coeff_primitive (primitive_ne_zero hp)

/-- The last entry is the leading coefficient. -/
theorem getLast?_primitive (hp : p.toPolynomial ≠ 0) :
    p.contentAndPrimitive.2.getLast? = some p.primitive.leadingCoeff := by
  have hlength : p.contentAndPrimitive.2.length = p.primitive.natDegree + 1 := by
    rw [length_primitive, size_eq hp, natDegree_primitive hp]
  rw [List.getLast?_eq_getElem?, hlength, Nat.add_sub_cancel, leadingCoeff, coeff_primitive,
    List.getD_eq_getElem?_getD, List.getElem?_eq_getElem (by omega), Option.getD_some]

/-- The leading coefficient is not zero, so it is not left out. -/
theorem getLast?_dropWhile_primitive (hp : p.toPolynomial ≠ 0) :
    (p.contentAndPrimitive.2.dropWhile (· == 0)).getLast? = some p.primitive.leadingCoeff := by
  have hhead := head?_dropWhile_primitive hp
  obtain ⟨zeros, hsplit⟩ := p.contentAndPrimitive.2.dropWhile_suffix (· == 0)
  cases hrest : p.contentAndPrimitive.2.dropWhile (· == 0) with
  | nil =>
    rw [hrest] at hhead
    cases hhead
  | cons c rest =>
    rw [← getLast?_primitive hp, ← hsplit, hrest, List.getLast?_append, List.getLast?_cons,
      Option.some_or]

end MarketAlgebra.Poly
