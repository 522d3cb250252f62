import Mathlib.Computability.StateTransition
import MarketAlgebra.Proofs.Poly.Division

/-!
# Long division and the Euclidean algorithm

Both algorithms are loops.  Long division keeps the quotient so far and what is left, and each turn
(`divStep`) cancels the leading term of what is left.  Nothing remains of that term, because its
exponent is dropped from the list when the coefficient becomes zero, so what is left becomes smaller
(`size_sub_leading_mul_lt`).  The Euclidean algorithm keeps two polynomials, and each turn
(`gcdStep`) replaces them by the second one and the remainder.

`divMod` and `gcd` are where these loops end (`divMod_mem_eval` and `gcd_mem_eval`).  What the loops
compute is division with remainder and a greatest common divisor (`division_is_euclidean`).
-/

namespace MarketAlgebra.Poly

open StateTransition (Reaches mem_eval)

variable {p d : Poly}

/-! ## Long division -/

/-- The term that cancels the leading term of a polynomial, for a divisor that is not larger. -/
def quotientTerm (p d : Poly) : Poly := monomial (p.size - d.size) (p.leading / d.leading)

/-- One turn of long division.  The state is the quotient so far and what is left. -/
def divStep (d : Poly) (s : Poly × Poly) : Option (Poly × Poly) :=
  if s.2.size < d.size then none
  else some (s.1 + quotientTerm s.2 d, s.2 - quotientTerm s.2 d * d)

/-- A turn makes what is left smaller. -/
theorem size_sub_leading_mul_lt (hd : d.size ≠ 0) (h : d.size ≤ p.size) :
    (p - quotientTerm p d * d).size < p.size := by
  have hreductum := size_reductum_lt (p := p) (by omega)
  have hdivisor := size_reductum_lt hd
  have hterm := size_timesTerm_le (p.size - d.size) (p.leading / d.leading) d.reductum
  have hsub : (p - quotientTerm p d * d).size ≤ p.size - 1 := by
    rw [quotientTerm, sub_leading_mul hd h]
    exact size_sub_le (by omega) (by omega)
  omega

/-- Division goes on with what is left after one turn. -/
theorem divMod_eq (hd : d.size ≠ 0) (h : d.size ≤ p.size) :
    divMod p d = (quotientTerm p d + (divMod (p - quotientTerm p d * d) d).1,
      (divMod (p - quotientTerm p d * d) d).2) := by
  have hstep : ¬(d.size = 0 ∨ p.size < d.size) := by omega
  rw [divMod, dif_neg hstep, quotientTerm, sub_leading_mul hd h]

/-- From any state, the loop adds the quotient of what is left and ends with its remainder. -/
theorem reaches_divMod (hd : d.size ≠ 0) (q p : Poly) :
    Reaches (divStep d) (q, p) (q + (divMod p d).1, (divMod p d).2) := by
  induction hn : p.size using Nat.strongRecOn generalizing q p with
  | ind n ih =>
    cases Nat.lt_or_ge p.size d.size with
    | inl hlt =>
      have hdone : divMod p d = (zero, p) := by rw [divMod, dif_pos (.inr hlt)]
      have hzero : q + zero = q := toPolynomial_injective (by simp)
      rw [hdone, hzero]
      exact .refl
    | inr hge =>
      have hturn : divStep d (q, p) =
          some (q + quotientTerm p d, p - quotientTerm p d * d) := if_neg (Nat.not_lt.2 hge)
      have hrest := ih _ (hn ▸ size_sub_leading_mul_lt hd hge) (q + quotientTerm p d) _ rfl
      have hassoc : q + quotientTerm p d + (divMod (p - quotientTerm p d * d) d).1 =
          q + (quotientTerm p d + (divMod (p - quotientTerm p d * d) d).1) :=
        toPolynomial_injective (by simp only [toPolynomial_add, add_assoc])
      rw [hassoc] at hrest
      rw [divMod_eq hd hge]
      exact .head hturn hrest

/-- Long division ends, with quotient and remainder. -/
theorem divMod_mem_eval (hd : d.size ≠ 0) (p : Poly) :
    divMod p d ∈ StateTransition.eval (divStep d) (zero, p) := by
  have hzero : zero + (divMod p d).1 = (divMod p d).1 := toPolynomial_injective (by simp)
  have hreaches := reaches_divMod hd zero p
  rw [hzero] at hreaches
  exact mem_eval.2 ⟨hreaches, if_pos (size_divMod_lt p hd)⟩

/-! ## The Euclidean algorithm -/

/-- One turn of the Euclidean algorithm. -/
def gcdStep (s : Poly × Poly) : Option (Poly × Poly) :=
  if s.2.isZero then none else some (s.2, (divMod s.1 s.2).2)

/-- The Euclidean algorithm ends with a zero polynomial.  The other one, made monic, is the greatest
common divisor. -/
theorem gcd_mem_eval (p q : Poly) :
    ∃ g, (g, zero) ∈ StateTransition.eval gcdStep (p, q) ∧ gcd p q = g.monic := by
  fun_induction gcd p q with
  | case1 p q h =>
    have hq : q = zero := toPolynomial_injective (size_eq_zero.1 h)
    subst hq
    exact ⟨p, mem_eval.2 ⟨.refl, rfl⟩, rfl⟩
  | case2 p q h _ ih =>
    have hq : ¬q.isZero = true := mt isZero_iff.1 (mt size_eq_zero.2 h)
    have hturn : gcdStep (p, q) = some (q, (divMod p q).2) := if_neg hq
    obtain ⟨g, hmem, hgcd⟩ := ih
    obtain ⟨hreaches, hend⟩ := mem_eval.1 hmem
    exact ⟨g, mem_eval.2 ⟨.head hturn hreaches, hend⟩, hgcd⟩

/-! ## Both together -/

/-- An exact division finds the quotient exactly when there is one. -/
theorem divExact?_eq_some_iff (hd : d ≠ zero) {q : Poly} :
    p.divExact? d = some q ↔ p.toPolynomial = q.toPolynomial * d.toPolynomial := by
  have hd' := toPolynomial_ne_zero hd
  refine ⟨eq_mul_of_divExact?, fun h => ?_⟩
  obtain ⟨r, hr, hmul⟩ := divExact?_of_dvd hd' ⟨q.toPolynomial, by rw [h, mul_comm]⟩
  rw [h] at hmul
  rw [hr, toPolynomial_injective (mul_right_cancel₀ hd' hmul)]

/-- Division and greatest common divisors are those of the Euclidean ring of polynomials.  Both
loops end.  For a divisor that is not zero, what is left over is smaller than the divisor, and a
division is exact exactly for a multiple of the divisor.  The greatest common divisor of two
polynomials that are not both zero is monic, divides both, and is divisible by every common
divisor. -/
theorem division_is_euclidean :
    (∀ p d : Poly, d ≠ zero → divMod p d ∈ StateTransition.eval (divStep d) (zero, p) ∧
      p.toPolynomial =
        (divMod p d).1.toPolynomial * d.toPolynomial + (divMod p d).2.toPolynomial ∧
      (divMod p d).2.toPolynomial.degree < d.toPolynomial.degree ∧
      ∀ q, p.divExact? d = some q ↔ p.toPolynomial = q.toPolynomial * d.toPolynomial) ∧
    (∀ p, divMod p zero = (zero, p)) ∧
    (∀ p q, ∃ g, (g, zero) ∈ StateTransition.eval gcdStep (p, q) ∧ gcd p q = g.monic) ∧
    gcd zero zero = zero ∧
    ∀ p q, p ≠ zero ∨ q ≠ zero → (gcd p q).toPolynomial.Monic ∧
      (gcd p q).toPolynomial ∣ p.toPolynomial ∧ (gcd p q).toPolynomial ∣ q.toPolynomial ∧
      ∀ c : Poly, c.toPolynomial ∣ p.toPolynomial → c.toPolynomial ∣ q.toPolynomial →
        c.toPolynomial ∣ (gcd p q).toPolynomial := by
  refine ⟨fun p d hd => ⟨?_, ?_, ?_, fun q => divExact?_eq_some_iff hd⟩, fun p => ?_, gcd_mem_eval,
    ?_, fun p q h => ⟨?_, gcd_dvd_left p q, gcd_dvd_right p q, fun c hp hq => ?_⟩⟩
  · exact divMod_mem_eval (mt size_eq_zero.1 (toPolynomial_ne_zero hd)) p
  · exact (divMod_spec p d).symm
  · exact degree_divMod_lt p (toPolynomial_ne_zero hd)
  · rw [divMod, dif_pos (.inl rfl)]
  · rw [gcd, dif_pos (show zero.size = 0 from rfl)]
    exact monic_of_toPolynomial_eq_zero rfl
  · exact monic_gcd (h.imp toPolynomial_ne_zero toPolynomial_ne_zero)
  · exact (dvd_gcd_iff p q c.toPolynomial).2 ⟨hp, hq⟩

/-- The quotient of `x ^ 2 - 1` by `x - 1` is `x + 1`. -/
theorem division_is_euclidean_of_square :
    x - one ≠ zero ∧ (x * x - one).divExact? (x - one) = some (x + one) := by
  have hne : x - one ≠ zero := by decide +kernel
  obtain ⟨-, -, -, hexact⟩ := division_is_euclidean.1 (x * x - one) (x - one) hne
  have hsquare : (x * x).toPolynomial = Polynomial.X * Polynomial.X := by
    rw [toPolynomial_mul_of_size_le (by decide), toPolynomial_x]
  refine ⟨hne, (hexact (x + one)).2 ?_⟩
  rw [toPolynomial_sub, toPolynomial_add, toPolynomial_sub, hsquare, toPolynomial_x,
    toPolynomial_one]
  ring

end MarketAlgebra.Poly
