import Mathlib.Algebra.Order.Ring.Rat
import Mathlib.Data.Rat.Lemmas
import MarketAlgebra.Poly.Content
import MarketAlgebra.Proofs.Poly.Ring

/-!
# Content and primitive part

Every coefficient is the content times an integer, the corresponding entry of the primitive part
(`coeff_eq_content_mul`).  The common denominator clears all denominators, and the greatest common
divisor of the integers that result divides each of them.
-/

namespace MarketAlgebra.Poly

/-! ## Common multiples and divisors of a list -/

/-- A step of the fold keeps what has been reached. -/
theorem dvd_foldl_lcm_of_dvd {ts : List (Nat × Rat)} {d e : Nat} (h : d ∣ e) :
    d ∣ ts.foldl (fun m t => m.lcm t.2.den) e := by
  induction ts generalizing e with
  | nil => exact h
  | cons t ts ih => exact ih (h.trans (Nat.dvd_lcm_left e t.2.den))

/-- Every denominator divides the least common multiple. -/
theorem den_dvd_foldl_lcm {ts : List (Nat × Rat)} {e : Nat} {t : Nat × Rat} (h : t ∈ ts) :
    t.2.den ∣ ts.foldl (fun m t => m.lcm t.2.den) e := by
  induction ts generalizing e with
  | nil => cases h
  | cons s ts ih =>
    rcases List.mem_cons.1 h with rfl | h
    · rw [List.foldl_cons]
      exact dvd_foldl_lcm_of_dvd (Nat.dvd_lcm_right e t.2.den)
    · exact ih h

theorem foldl_lcm_pos {ts : List (Nat × Rat)} {e : Nat} (h : 0 < e) :
    0 < ts.foldl (fun m t => m.lcm t.2.den) e := by
  induction ts generalizing e with
  | nil => exact h
  | cons t ts ih => exact ih (Nat.lcm_pos h t.2.den_pos)

/-- The greatest common divisor divides what the fold started with. -/
theorem foldl_gcd_dvd_start (cs : List Int) (e : Int) :
    cs.foldl (fun g c => (g.gcd c.natAbs : Int)) e ∣ e := by
  induction cs generalizing e with
  | nil => exact dvd_rfl
  | cons c cs ih => exact (ih _).trans (Int.gcd_dvd_left e c.natAbs)

/-- The greatest common divisor divides every element. -/
theorem foldl_gcd_dvd {cs : List Int} {e : Int} {c : Int} (h : c ∈ cs) :
    cs.foldl (fun g c => (g.gcd c.natAbs : Int)) e ∣ c := by
  induction cs generalizing e with
  | nil => cases h
  | cons d cs ih =>
    rcases List.mem_cons.1 h with rfl | h
    · exact (foldl_gcd_dvd_start cs _).trans (Int.dvd_natAbs.1 (Int.gcd_dvd_right e c.natAbs))
    · exact ih h

/-! ## Integer coefficients -/

variable {p : Poly}

theorem commonDenominator_pos (p : Poly) : 0 < p.commonDenominator := foldl_lcm_pos Nat.one_pos

/-- The common denominator clears the denominator of every coefficient. -/
theorem den_coeff_dvd (p : Poly) (n : Nat) : (p.coeff n).den ∣ p.commonDenominator := by
  rw [coeff]
  cases h : p.terms.lookup n with
  | none => exact one_dvd _
  | some c =>
    obtain ⟨ss, ts, hsplit, -⟩ := List.lookup_eq_some_iff.1 h
    exact den_dvd_foldl_lcm (t := (n, c)) (by rw [hsplit]; simp)

/-- A coefficient times the common denominator is an integer. -/
theorem num_coeff_mul (p : Poly) (n : Nat) :
    ((p.coeff n * p.commonDenominator).num : Rat) = p.coeff n * p.commonDenominator := by
  obtain ⟨k, hk⟩ := den_coeff_dvd p n
  have hint : p.coeff n * p.commonDenominator = ((p.coeff n).num * k : ℤ) := by
    rw [hk]
    push_cast
    rw [← mul_assoc, Rat.mul_den_eq_num]
  rw [hint, Rat.num_intCast]

theorem length_integerCoeffs (p : Poly) : p.integerCoeffs.length = p.size := by
  rw [integerCoeffs, List.length_map, List.length_range]

theorem getD_integerCoeffs (p : Poly) (n : Nat) :
    (p.integerCoeffs.getD n 0 : Rat) = p.coeff n * p.commonDenominator := by
  rw [integerCoeffs, List.getD_eq_getElem?_getD, List.getElem?_map]
  by_cases h : n < p.size
  · rw [List.getElem?_range h]
    exact num_coeff_mul p n
  · have hcoeff : p.coeff n = 0 := by
      rw [coeff_eq]
      by_cases hp : p.toPolynomial = 0
      · rw [hp, Polynomial.coeff_zero]
      · rw [size_eq hp] at h
        exact Polynomial.coeff_eq_zero_of_natDegree_lt (by omega)
    rw [List.getElem?_eq_none (by simpa using h), hcoeff]
    simp

/-- The greatest common divisor of the integer coefficients, with the sign of the leading one. -/
def signedDivisor (p : Poly) : Int :=
  let divisor := p.integerCoeffs.foldl (fun g c => (g.gcd c.natAbs : Int)) 0
  if p.leading < 0 then -divisor else divisor

theorem contentAndPrimitive_eq (p : Poly) : p.contentAndPrimitive =
    (mkRat p.signedDivisor p.commonDenominator, p.integerCoeffs.map (· / p.signedDivisor)) := rfl

theorem signedDivisor_dvd {c : Int} (h : c ∈ p.integerCoeffs) : p.signedDivisor ∣ c := by
  rw [signedDivisor]
  split
  · exact Int.neg_dvd.2 (foldl_gcd_dvd h)
  · exact foldl_gcd_dvd h

/-- The leading coefficient keeps the common divisor from being zero. -/
theorem signedDivisor_ne_zero (hp : p.toPolynomial ≠ 0) : p.signedDivisor ≠ 0 := by
  intro hz
  have hsize := size_eq hp
  have hlast : p.integerCoeffs.getD p.toPolynomial.natDegree 0 = 0 := by
    rw [List.getD_eq_getElem?_getD, List.getElem?_eq_getElem (by rw [length_integerCoeffs]; omega)]
    have hdvd := signedDivisor_dvd (p := p) (List.getElem_mem (l := p.integerCoeffs)
      (n := p.toPolynomial.natDegree) (by rw [length_integerCoeffs]; omega))
    rw [hz, zero_dvd_iff] at hdvd
    exact hdvd
  have hcoeff := getD_integerCoeffs p p.toPolynomial.natDegree
  rw [hlast, coeff_eq, Polynomial.coeff_natDegree, Int.cast_zero, eq_comm, mul_eq_zero] at hcoeff
  rcases hcoeff with h | h
  · exact hp (Polynomial.leadingCoeff_eq_zero.1 h)
  · exact (commonDenominator_pos p).ne' (by exact_mod_cast h)

/-- The content of a polynomial that is not zero is not zero. -/
theorem content_ne_zero (hp : p.toPolynomial ≠ 0) : p.contentAndPrimitive.1 ≠ 0 := by
  rw [contentAndPrimitive_eq, Rat.mkRat_eq_div]
  exact div_ne_zero (Int.cast_ne_zero.2 (signedDivisor_ne_zero hp))
    (Nat.cast_ne_zero.2 (commonDenominator_pos p).ne')

theorem length_primitive (p : Poly) : p.contentAndPrimitive.2.length = p.size := by
  rw [contentAndPrimitive_eq, List.length_map, length_integerCoeffs]

/-- Every coefficient is the content times an entry of the primitive part. -/
theorem coeff_eq_content_mul (p : Poly) (n : Nat) :
    p.coeff n = p.contentAndPrimitive.1 * p.contentAndPrimitive.2.getD n 0 := by
  have hden : (p.commonDenominator : Rat) ≠ 0 :=
    Nat.cast_ne_zero.2 (commonDenominator_pos p).ne'
  have hdiv : (p.signedDivisor : Rat) * p.contentAndPrimitive.2.getD n 0 =
      p.integerCoeffs.getD n 0 := by
    rw [contentAndPrimitive_eq, List.getD_eq_getElem?_getD, List.getElem?_map,
      List.getD_eq_getElem?_getD]
    cases h : p.integerCoeffs[n]? with
    | none => simp
    | some c =>
      have hdvd := signedDivisor_dvd (List.mem_of_getElem? h)
      simp only [Option.map_some, Option.getD_some]
      exact_mod_cast Int.mul_ediv_cancel' hdvd
  have hnum := getD_integerCoeffs p n
  rw [← hdiv] at hnum
  rw [contentAndPrimitive_eq, Rat.mkRat_eq_div, div_mul_eq_mul_div, eq_div_iff hden]
  exact hnum.symm

end MarketAlgebra.Poly
