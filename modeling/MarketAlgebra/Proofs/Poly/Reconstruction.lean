import Mathlib.Algebra.GCDMonoid.Multiset
import Mathlib.Algebra.GCDMonoid.Nat
import Mathlib.Data.Sign.Basic
import MarketAlgebra.Proofs.Poly.Primitive

/-!
# A polynomial from its content and primitive part

Content and primitive part make up the polynomial (`Reconstructs`): the integers have no common
divisor, the last one is positive, and the content times each of them is a coefficient.

There is no other such pair.  Of two of them, one content is a rational times the other, and the
entries of the second list are this rational times those of the first.  Its numerator divides all
entries of the second list and its denominator all entries of the first (`num_dvd_and_den_dvd`), so
both are units, and the signs of the last entries leave only the rational one.
-/

namespace MarketAlgebra.Poly

open Polynomial

variable {p : Poly} {c c' : Rat} {v v' : List Int}

/-- The rational times the integers, constant term first, are the coefficients of the polynomial, up
to the leading one.  The integers have no common divisor, and the last one is positive. -/
structure Reconstructs (p : Poly) (c : Rat) (v : List Int) : Prop where
  length_eq : v.length = p.toPolynomial.natDegree + 1
  gcd_eq_one : (v : Multiset ℤ).gcd = 1
  last_pos : ∃ a, v.getLast? = some a ∧ 0 < a
  coeff_eq : ∀ i, p.coeff i = c * v.getD i 0

/-! ## The sign of the content -/

theorem foldl_gcd_nonneg {cs : List Int} {e : Int} (he : 0 ≤ e) :
    0 ≤ cs.foldl (fun g c => (g.gcd c.natAbs : Int)) e := by
  induction cs generalizing e with
  | nil => exact he
  | cons c cs ih => exact ih (Int.natCast_nonneg _)

/-- The content has the sign of the leading coefficient. -/
theorem sign_content (hp : p.toPolynomial ≠ 0) :
    SignType.sign p.contentAndPrimitive.1 = SignType.sign p.leading := by
  have hdivisor : 0 ≤ p.integerCoeffs.foldl (fun g c => (g.gcd c.natAbs : Int)) 0 :=
    foldl_gcd_nonneg le_rfl
  have hden : (0 : Rat) < p.commonDenominator := Nat.cast_pos.2 (commonDenominator_pos p)
  have hne := signedDivisor_ne_zero hp
  have hlead : p.leading ≠ 0 := by
    rw [leading_eq]
    exact leadingCoeff_ne_zero.2 hp
  rw [contentAndPrimitive_eq, Rat.mkRat_eq_div]
  rw [signedDivisor] at hne ⊢
  split at hne
  case isTrue hneg =>
    rw [if_pos hneg, sign_neg hneg, sign_neg]
    refine div_neg_of_neg_of_pos (Int.cast_lt_zero.2 ?_) hden
    omega
  case isFalse hnonneg =>
    rw [if_neg hnonneg, sign_pos (lt_of_le_of_ne (not_lt.1 hnonneg) hlead.symm), sign_pos]
    refine div_pos (Int.cast_pos.2 ?_) hden
    omega

/-- So the leading coefficient of the primitive part is positive. -/
theorem leadingCoeff_primitive_pos (hp : p.toPolynomial ≠ 0) : 0 < p.primitive.leadingCoeff := by
  have hlead : p.leading = p.contentAndPrimitive.1 * p.primitive.leadingCoeff := by
    rw [leading_eq, leadingCoeff, leadingCoeff, natDegree_primitive hp, coeff_primitive, ← coeff_eq,
      coeff_eq_content_mul]
  have hsign := sign_content hp
  rw [hlead, sign_mul, left_eq_mul₀ (sign_ne_zero.2 (content_ne_zero hp)), sign_eq_one_iff] at hsign
  exact Int.cast_pos.1 hsign

/-! ## Existence -/

theorem gcd_primitive (hp : p.toPolynomial ≠ 0) :
    (p.contentAndPrimitive.2 : Multiset ℤ).gcd = 1 := by
  have hdvd : C (p.contentAndPrimitive.2 : Multiset ℤ).gcd ∣ p.primitive := by
    rw [C_dvd_iff_dvd_coeff]
    intro n
    rw [coeff_primitive, List.getD_eq_getElem?_getD]
    cases h : p.contentAndPrimitive.2[n]? with
    | none => exact dvd_zero _
    | some a => exact Multiset.gcd_dvd (List.mem_of_getElem? h)
  have hunit := (isPrimitive_iff_isUnit_of_C_dvd.1 (isPrimitive_primitive hp)) _ hdvd
  rw [← Multiset.normalize_gcd, normalize_eq_one.2 hunit]

theorem reconstructs_contentAndPrimitive (hp : p.toPolynomial ≠ 0) :
    Reconstructs p p.contentAndPrimitive.1 p.contentAndPrimitive.2 where
  length_eq := by rw [length_primitive, size_eq hp]
  gcd_eq_one := gcd_primitive hp
  last_pos := ⟨_, getLast?_primitive hp, leadingCoeff_primitive_pos hp⟩
  coeff_eq := coeff_eq_content_mul p

/-! ## Uniqueness -/

/-- A rational that takes an integer to an integer. -/
theorem num_dvd_and_den_dvd {q : Rat} {a b : Int} (h : q * a = b) :
    q.num ∣ b ∧ (q.den : Int) ∣ a := by
  have hmul : q.num * a = b * q.den := by
    have hcast : (q.num : Rat) * a = b * q.den := by
      rw [← h, mul_right_comm, Rat.mul_den_eq_num]
    exact_mod_cast hcast
  have hcoprime : IsCoprime q.num q.den := Int.isCoprime_iff_gcd_eq_one.2 q.reduced
  exact ⟨hcoprime.dvd_of_dvd_mul_right ⟨a, hmul.symm⟩,
    hcoprime.symm.dvd_of_dvd_mul_left ⟨b, by rw [hmul, mul_comm]⟩⟩

/-- A positive rational in lowest terms with units above and below the bar. -/
theorem eq_one_of_isUnit {q : Rat} (hq : 0 < q) (hnum : IsUnit q.num)
    (hden : IsUnit (q.den : Int)) : q = 1 := by
  have hnum' : q.num = 1 := by
    have := Rat.num_pos.2 hq
    have := Int.isUnit_iff.1 hnum
    omega
  have hden' : q.den = 1 := Nat.isUnit_iff.1 (Int.ofNat_isUnit.1 hden)
  rw [← Rat.num_div_den q, hnum', hden', Int.cast_one, Nat.cast_one, div_one]

theorem Reconstructs.isUnit_of_dvd (h : Reconstructs p c v) {d : Int} (hd : ∀ i, d ∣ v.getD i 0) :
    IsUnit d := by
  rw [isUnit_iff_dvd_one, ← h.gcd_eq_one, Multiset.dvd_gcd]
  intro a ha
  obtain ⟨i, hi, rfl⟩ := List.getElem_of_mem (Multiset.mem_coe.1 ha)
  have := hd i
  rwa [List.getD_eq_getElem?_getD, List.getElem?_eq_getElem hi] at this

/-- The last entry stands at the degree. -/
theorem Reconstructs.getD_pos (h : Reconstructs p c v) :
    0 < v.getD p.toPolynomial.natDegree 0 := by
  obtain ⟨a, hlast, ha⟩ := h.last_pos
  rw [List.getLast?_eq_getElem?, h.length_eq, Nat.add_sub_cancel] at hlast
  rwa [List.getD_eq_getElem?_getD, hlast]

theorem Reconstructs.ne_zero (h : Reconstructs p c v) (hp : p.toPolynomial ≠ 0) : c ≠ 0 := by
  rintro rfl
  have hcoeff := h.coeff_eq p.toPolynomial.natDegree
  rw [zero_mul, Poly.coeff_eq, coeff_natDegree] at hcoeff
  exact leadingCoeff_ne_zero.2 hp hcoeff

/-- Both contents are the same: their quotient takes each list to the other one. -/
theorem Reconstructs.content_eq (h : Reconstructs p c v) (h' : Reconstructs p c' v')
    (hp : p.toPolynomial ≠ 0) : c = c' := by
  have hc' := h'.ne_zero hp
  have hratio : ∀ i, c / c' * v.getD i 0 = v'.getD i 0 := by
    intro i
    have hcoeff := h.coeff_eq i
    rw [h'.coeff_eq i] at hcoeff
    field_simp
    exact hcoeff.symm
  have hnum : IsUnit (c / c').num :=
    h'.isUnit_of_dvd fun i => (num_dvd_and_den_dvd (hratio i)).1
  have hden : IsUnit ((c / c').den : Int) :=
    h.isUnit_of_dvd fun i => (num_dvd_and_den_dvd (hratio i)).2
  have hpos : 0 < c / c' := by
    have hlast : (0 : Rat) < c / c' * v.getD p.toPolynomial.natDegree 0 := by
      rw [hratio]
      exact Int.cast_pos.2 h'.getD_pos
    exact pos_of_mul_pos_left hlast (Int.cast_nonneg h.getD_pos.le)
  exact (div_eq_one_iff_eq hc').1 (eq_one_of_isUnit hpos hnum hden)

theorem Reconstructs.eq (h : Reconstructs p c v) (h' : Reconstructs p c' v')
    (hp : p.toPolynomial ≠ 0) : c = c' ∧ v = v' := by
  obtain rfl := h.content_eq h' hp
  refine ⟨rfl, List.ext_getElem (by rw [h.length_eq, h'.length_eq]) fun i hi hi' => ?_⟩
  have hcoeff := h.coeff_eq i
  rw [h'.coeff_eq i, mul_right_inj' (h.ne_zero hp), Int.cast_inj, List.getD_eq_getElem?_getD,
    List.getD_eq_getElem?_getD, List.getElem?_eq_getElem hi, List.getElem?_eq_getElem hi'] at hcoeff
  exact hcoeff.symm

/-- Content and primitive part of a polynomial that is not zero are the only rational and the only
list of integers that make up the polynomial, and the content has the sign of the leading
coefficient. -/
theorem contentAndPrimitive_reconstructs (hp : p ≠ zero) :
    (∀ c v, p.contentAndPrimitive = (c, v) ↔ Reconstructs p c v) ∧
      SignType.sign p.contentAndPrimitive.1 = SignType.sign p.leading := by
  have hp' := toPolynomial_ne_zero hp
  refine ⟨fun c v => ⟨?_, fun h => ?_⟩, sign_content hp'⟩
  · rintro h
    have hreconstructs := reconstructs_contentAndPrimitive hp'
    rwa [h] at hreconstructs
  · obtain ⟨hc, hv⟩ := (reconstructs_contentAndPrimitive hp').eq h hp'
    exact Prod.ext hc hv

/-- The polynomial `-2/3 * x ^ 2 - 4/3` is `-2/3` times `x ^ 2 + 2`. -/
theorem contentAndPrimitive_reconstructs_of_negative :
    let p : Poly := scale (-2 / 3) (x * x) - const (4 / 3)
    p ≠ zero ∧ Reconstructs p (-2 / 3) [2, 0, 1] ∧
      SignType.sign p.contentAndPrimitive.1 = SignType.sign p.leading := by
  intro p
  have hp : p ≠ zero := by decide +kernel
  obtain ⟨honly, hsign⟩ := contentAndPrimitive_reconstructs hp
  exact ⟨hp, (honly _ _).1 (by decide +kernel), hsign⟩

end MarketAlgebra.Poly
