import Mathlib.Algebra.Polynomial.BigOperators
import Mathlib.Algebra.Polynomial.Derivative
import Mathlib.Algebra.Polynomial.EraseLead
import Mathlib.Algebra.Polynomial.FieldDivision
import Mathlib.Algebra.Ring.GeomSum
import MarketAlgebra.Poly.Basic

/-!
# Polynomials as elements of a ring

`Poly.toPolynomial` is the polynomial that a list of terms denotes, the sum of its terms.  Every
operation has one lemma that says which operation of the ring of polynomials it is.  Where exponents
are added, that is the operation modulo `X ^ wordSize - 1` (`wrap`), and the one of the ring itself
as long as the degree of the result is a word.

Since the list is canonical, its first term is the leading term (`size_eq`, `leading_eq`), and two
lists with the same sum are equal (`toPolynomial_injective`).
-/

namespace MarketAlgebra.Poly

open Polynomial

/-! ## Lists of terms -/

/-- The sum of a list of terms. -/
noncomputable def sumTerms (ts : List (Nat × Rat)) : ℚ[X] :=
  (ts.map fun t => Polynomial.monomial t.1 t.2).sum

@[simp] theorem sumTerms_nil : sumTerms [] = 0 := rfl

@[simp] theorem sumTerms_cons (t : Nat × Rat) (ts : List (Nat × Rat)) :
    sumTerms (t :: ts) = Polynomial.monomial t.1 t.2 + sumTerms ts := rfl

/-- Merging two lists adds their sums. -/
theorem sumTerms_addTerms (ss ts : List (Nat × Rat)) :
    sumTerms (addTerms ss ts) = sumTerms ss + sumTerms ts := by
  fun_induction addTerms ss ts with
  | case1 ts => rw [sumTerms_nil, zero_add]
  | case2 ss => rw [sumTerms_nil, add_zero]
  | case3 m a ss n b ts _ ih =>
    rw [sumTerms_cons, ih, sumTerms_cons (m, a), add_assoc]
  | case4 m a ss n b ts _ _ ih =>
    rw [sumTerms_cons, ih, sumTerms_cons (n, b), add_left_comm]
  | case5 m a ss n b ts hlt hlt' hz ih =>
    obtain rfl : m = n := Nat.le_antisymm (Nat.le_of_not_lt hlt) (Nat.le_of_not_lt hlt')
    have hcancel : Polynomial.monomial m a + Polynomial.monomial m b = 0 := by
      rw [← map_add, hz, map_zero]
    rw [ih, sumTerms_cons, sumTerms_cons, add_add_add_comm, hcancel, zero_add]
  | case6 m a ss n b ts hlt hlt' _ ih =>
    obtain rfl : m = n := Nat.le_antisymm (Nat.le_of_not_lt hlt) (Nat.le_of_not_lt hlt')
    rw [sumTerms_cons, ih, sumTerms_cons, sumTerms_cons, map_add, add_add_add_comm]

/-- Exponents below a bound give a degree below it. -/
theorem degree_sumTerms_lt {ts : List (Nat × Rat)} {n : Nat} (h : ∀ t ∈ ts, t.1 < n) :
    (sumTerms ts).degree < n := by
  induction ts with
  | nil => simp
  | cons t ts ih =>
    rw [sumTerms_cons]
    refine lt_of_le_of_lt (degree_add_le _ _) (max_lt ?_ ?_)
    · refine lt_of_le_of_lt (degree_monomial_le _ _) ?_
      exact_mod_cast h t List.mem_cons_self
    · exact ih fun s hs => h s (List.mem_cons_of_mem t hs)

/-! ## Exponents that wrap around -/

/-- A polynomial with its exponents wrapped around to words. -/
noncomputable def wrap (f : ℚ[X]) : ℚ[X] := f %ₘ (X ^ wordSize - C 1)

section

variable {f g f' g' : ℚ[X]}

theorem wrap_of_degree_lt (h : f.degree < wordSize) : wrap f = f := by
  rw [wrap, modByMonic_eq_self_iff (monic_X_pow_sub_C 1 wordSize_pos.ne'),
    degree_X_pow_sub_C wordSize_pos]
  exact h

theorem degree_wrap_lt (f : ℚ[X]) : (wrap f).degree < wordSize := by
  rw [wrap, ← degree_X_pow_sub_C wordSize_pos (1 : ℚ)]
  exact degree_modByMonic_lt f (monic_X_pow_sub_C 1 wordSize_pos.ne')

theorem wrap_wrap (f : ℚ[X]) : wrap (wrap f) = wrap f := wrap_of_degree_lt (degree_wrap_lt f)

theorem wrap_add (f g : ℚ[X]) : wrap (f + g) = wrap f + wrap g := add_modByMonic f g

/-- Factors may be wrapped around before they are multiplied. -/
theorem wrap_mul_congr (hf : wrap f = wrap f') (hg : wrap g = wrap g') :
    wrap (f * g) = wrap (f' * g') := by
  unfold wrap at *
  rw [mul_modByMonic, hf, hg, ← mul_modByMonic]

theorem wrap_pow_congr (h : wrap f = wrap g) (n : ℕ) : wrap (f ^ n) = wrap (g ^ n) := by
  induction n with
  | zero => rw [pow_zero, pow_zero]
  | succ n ih => rw [pow_succ, pow_succ, wrap_mul_congr ih h]

/-- Modulo `X ^ N - 1`, a term is the one with its exponent modulo `N`. -/
theorem monomial_modByMonic {N : ℕ} (hN : 0 < N) (n : ℕ) (c : ℚ) :
    Polynomial.monomial n c %ₘ (X ^ N - C 1) = Polynomial.monomial (n % N) c := by
  have hmonic : (X ^ N - C 1 : ℚ[X]).Monic := monic_X_pow_sub_C 1 hN.ne'
  have hlt : (Polynomial.monomial (n % N) c).degree < (X ^ N - C 1 : ℚ[X]).degree := by
    rw [degree_X_pow_sub_C hN]
    exact (degree_monomial_le _ _).trans_lt (by exact_mod_cast Nat.mod_lt n hN)
  have hsplit : Polynomial.monomial n c =
      Polynomial.monomial (n % N) c * (X ^ N) ^ (n / N) := by
    rw [← pow_mul, monomial_mul_X_pow, Nat.mod_add_div]
  rw [← (modByMonic_eq_self_iff hmonic).2 hlt]
  refine modByMonic_eq_of_dvd_sub hmonic ?_
  rw [hsplit, ← mul_sub_one, map_one]
  exact (sub_one_dvd_pow_sub_one _ _).mul_left _

theorem wrap_monomial (n : ℕ) (c : ℚ) :
    wrap (Polynomial.monomial n c) = Polynomial.monomial (n % wordSize) c := by
  rw [wrap, monomial_modByMonic wordSize_pos]

end

/-! ## The polynomial of a list -/

/-- The polynomial as an element of the ring of polynomials over the rationals. -/
noncomputable def toPolynomial (p : Poly) : ℚ[X] := sumTerms p.terms

variable {p q : Poly} {n : ℕ}

/-- The degree is a word. -/
theorem degree_toPolynomial_lt (p : Poly) : p.toPolynomial.degree < wordSize :=
  degree_sumTerms_lt p.canonical.word

theorem wrap_toPolynomial (p : Poly) : wrap p.toPolynomial = p.toPolynomial :=
  wrap_of_degree_lt (degree_toPolynomial_lt p)

@[simp] theorem toPolynomial_zero : zero.toPolynomial = 0 := rfl

theorem toPolynomial_monomial (n : ℕ) (c : Rat) :
    (monomial n c).toPolynomial = wrap (Polynomial.monomial n c) := by
  rw [wrap_monomial, monomial]
  split
  next h => rw [h, map_zero, toPolynomial_zero]
  next => rw [toPolynomial, sumTerms_cons, sumTerms_nil, add_zero]

theorem toPolynomial_monomial_of_lt (h : n < wordSize) (c : Rat) :
    (monomial n c).toPolynomial = Polynomial.monomial n c := by
  rw [toPolynomial_monomial, wrap_monomial, Nat.mod_eq_of_lt h]

@[simp] theorem toPolynomial_const (c : Rat) : (const c).toPolynomial = C c := by
  rw [const, toPolynomial_monomial_of_lt wordSize_pos, monomial_zero_left]

@[simp] theorem toPolynomial_one : one.toPolynomial = 1 := by
  rw [one, toPolynomial_const, map_one]

theorem one_lt_wordSize : 1 < wordSize := by decide

@[simp] theorem toPolynomial_x : x.toPolynomial = X := by
  rw [x, toPolynomial_monomial_of_lt one_lt_wordSize, monomial_one_one_eq_X]

@[simp] theorem toPolynomial_add (p q : Poly) :
    (p + q).toPolynomial = p.toPolynomial + q.toPolynomial :=
  sumTerms_addTerms p.terms q.terms

theorem toPolynomial_ofTerms (ts : List (Nat × Rat)) :
    (ofTerms ts).toPolynomial = wrap (sumTerms ts) := by
  induction ts with
  | nil => exact (wrap_toPolynomial zero).symm
  | cons t ts ih =>
    show (monomial t.1 t.2 + ofTerms ts).toPolynomial = _
    rw [toPolynomial_add, toPolynomial_monomial, ih, sumTerms_cons, wrap_add]

theorem toPolynomial_ofTerms_of_lt {ts : List (Nat × Rat)} (h : ∀ t ∈ ts, t.1 < wordSize) :
    (ofTerms ts).toPolynomial = sumTerms ts := by
  rw [toPolynomial_ofTerms, wrap_of_degree_lt (degree_sumTerms_lt h)]

theorem sumTerms_map_timesTerm (n : ℕ) (c : Rat) (ts : List (Nat × Rat)) :
    sumTerms (ts.map fun t => (t.1 + n, c * t.2)) =
      Polynomial.monomial n c * sumTerms ts := by
  induction ts with
  | nil => rw [List.map_nil, sumTerms_nil, mul_zero]
  | cons t ts ih =>
    rw [List.map_cons, sumTerms_cons, ih, sumTerms_cons, mul_add, monomial_mul_monomial,
      Nat.add_comm n]

theorem toPolynomial_timesTerm (n : ℕ) (c : Rat) (p : Poly) :
    (timesTerm n c p).toPolynomial = wrap (Polynomial.monomial n c * p.toPolynomial) := by
  rw [timesTerm, toPolynomial_ofTerms, sumTerms_map_timesTerm, toPolynomial]

theorem toPolynomial_timesTerm_of_size_le (h : p.size + n ≤ wordSize) (c : Rat) :
    (timesTerm n c p).toPolynomial = Polynomial.monomial n c * p.toPolynomial := by
  rw [timesTerm, toPolynomial_ofTerms_of_lt, sumTerms_map_timesTerm, toPolynomial]
  intro t ht
  obtain ⟨s, hs, rfl⟩ := List.mem_map.1 ht
  have := size_le_iff.1 le_rfl s hs
  simp only
  omega

@[simp] theorem toPolynomial_scale (c : Rat) (p : Poly) :
    (scale c p).toPolynomial = C c * p.toPolynomial := by
  rw [scale, toPolynomial_timesTerm_of_size_le (size_le_wordSize p), monomial_zero_left]

@[simp] theorem toPolynomial_neg (p : Poly) : (-p).toPolynomial = -p.toPolynomial := by
  show (scale (-1) p).toPolynomial = _
  rw [toPolynomial_scale, map_neg, map_one, neg_one_mul]

@[simp] theorem toPolynomial_sub (p q : Poly) :
    (p - q).toPolynomial = p.toPolynomial - q.toPolynomial := by
  show (p + -q).toPolynomial = _
  rw [toPolynomial_add, toPolynomial_neg, sub_eq_add_neg]

theorem toPolynomial_mul (p q : Poly) :
    (p * q).toPolynomial = wrap (p.toPolynomial * q.toPolynomial) := by
  show (p.terms.foldr (fun t r => timesTerm t.1 t.2 q + r) zero).toPolynomial =
    wrap (sumTerms p.terms * q.toPolynomial)
  induction p.terms with
  | nil => rw [List.foldr_nil, sumTerms_nil, zero_mul, ← toPolynomial_zero, wrap_toPolynomial]
  | cons t ts ih =>
    rw [List.foldr_cons, toPolynomial_add, ih, toPolynomial_timesTerm, sumTerms_cons, add_mul,
      wrap_add]

/-- A product with the power of a polynomial, by repeated squaring. -/
theorem toPolynomial_timesPower (p base : Poly) (n : ℕ) :
    (timesPower p base n).toPolynomial = wrap (p.toPolynomial * base.toPolynomial ^ n) := by
  induction n using Nat.strongRecOn generalizing p base with
  | ind n ih =>
    rw [timesPower]
    split
    next h => rw [h, pow_zero, mul_one, wrap_toPolynomial]
    next h =>
      have hhalf := wrap_pow_congr (f := (base * base).toPolynomial)
        (g := base.toPolynomial * base.toPolynomial)
        (by rw [toPolynomial_mul, wrap_wrap]) (n / 2)
      rw [ih (n / 2) (by omega)]
      split
      next hodd =>
        have hfactor : wrap (p * base).toPolynomial =
            wrap (p.toPolynomial * base.toPolynomial) := by
          rw [toPolynomial_mul, wrap_wrap]
        rw [wrap_mul_congr hfactor hhalf, ← sq, ← pow_mul, mul_assoc, ← pow_succ']
        congr 3
        omega
      next heven =>
        rw [wrap_mul_congr rfl hhalf, ← sq, ← pow_mul]
        congr 3
        omega

theorem toPolynomial_pow (p : Poly) (n : ℕ) :
    (p.pow n).toPolynomial = wrap (p.toPolynomial ^ n) := by
  rw [Poly.pow, toPolynomial_timesPower, toPolynomial_one, one_mul]

theorem size_mul_le (p q : Poly) : (p * q).size ≤ p.size + q.size - 1 := by
  have hsum : ∀ ts : List (Nat × Rat), (∀ t ∈ ts, t.1 < p.size) →
      (ts.foldr (fun t r => timesTerm t.1 t.2 q + r) zero).size ≤ p.size + q.size - 1 := by
    intro ts hts
    induction ts with
    | nil => exact Nat.zero_le _
    | cons t ts ih =>
      obtain ⟨ht, hts⟩ := List.forall_mem_cons.1 hts
      refine size_add_le ((size_timesTerm_le t.1 t.2 q).trans ?_) (ih hts)
      omega
  exact hsum p.terms (size_le_iff.1 le_rfl)

theorem size_timesPower_le (p base : Poly) (n : ℕ) :
    (timesPower p base n).size ≤ p.size + n * (base.size - 1) := by
  induction n using Nat.strongRecOn generalizing p base with
  | ind n ih =>
    rw [timesPower]
    split
    next h => exact Nat.le_add_right _ _
    next h =>
      have hsquare : (base * base).size - 1 ≤ 2 * (base.size - 1) := by
        have := size_mul_le base base
        omega
      have hfactor : (if n % 2 = 1 then p * base else p).size ≤
          p.size + n % 2 * (base.size - 1) := by
        have := size_mul_le p base
        split
        next hodd =>
          rw [hodd]
          omega
        next => exact Nat.le_add_right _ _
      calc _ ≤ (if n % 2 = 1 then p * base else p).size + n / 2 * ((base * base).size - 1) :=
            ih (n / 2) (by omega) _ _
        _ ≤ p.size + n % 2 * (base.size - 1) + n / 2 * (2 * (base.size - 1)) :=
            Nat.add_le_add hfactor (Nat.mul_le_mul_left _ hsquare)
        _ = p.size + (n % 2 + n / 2 * 2) * (base.size - 1) := by ring
        _ = p.size + n * (base.size - 1) := by rw [Nat.mod_add_div']

theorem size_const_le (c : Rat) : (const c).size ≤ 1 := size_monomial_le 0 c

theorem size_x_le : x.size ≤ 2 := size_monomial_le 1 1

theorem size_pow_le (p : Poly) (n : ℕ) : (p.pow n).size ≤ n * (p.size - 1) + 1 :=
  (size_timesPower_le one p n).trans (by have := size_const_le 1; rw [one]; omega)

@[simp] theorem toPolynomial_derivative (p : Poly) :
    p.derivative.toPolynomial = Polynomial.derivative p.toPolynomial := by
  have hderivative : ∀ ts : List (Nat × Rat), sumTerms (ts.map fun t => (t.1 - 1, t.2 * t.1)) =
      Polynomial.derivative (sumTerms ts) := by
    intro ts
    induction ts with
    | nil => rw [List.map_nil, sumTerms_nil, Polynomial.derivative_zero]
    | cons t ts ih =>
      rw [List.map_cons, sumTerms_cons, ih, sumTerms_cons, Polynomial.derivative_add,
        Polynomial.derivative_monomial]
  rw [derivative, toPolynomial_ofTerms_of_lt, hderivative, toPolynomial]
  intro t ht
  obtain ⟨s, hs, rfl⟩ := List.mem_map.1 ht
  exact (Nat.sub_le _ _).trans_lt (p.canonical.word s hs)

/-! ## The leading term -/

theorem toPolynomial_of_terms {t : Nat × Rat} {ts : List (Nat × Rat)} (h : p.terms = t :: ts) :
    p.toPolynomial = Polynomial.monomial t.1 t.2 + p.reductum.toPolynomial := by
  show sumTerms p.terms = _ + sumTerms p.terms.tail
  rw [h, sumTerms_cons, List.tail_cons]

/-- The first term has the largest exponent, and its coefficient is not zero. -/
theorem degree_of_terms {t : Nat × Rat} {ts : List (Nat × Rat)} (h : p.terms = t :: ts) :
    p.toPolynomial.degree = t.1 ∧ p.toPolynomial.leadingCoeff = t.2 := by
  have hcanonical := p.canonical
  rw [h] at hcanonical
  have hne : t.2 ≠ 0 := hcanonical.2 t List.mem_cons_self
  have hrest : (sumTerms ts).degree < (Polynomial.monomial t.1 t.2).degree := by
    rw [degree_monomial _ hne]
    exact degree_sumTerms_lt (List.pairwise_cons.1 hcanonical.1).1
  rw [toPolynomial, h, sumTerms_cons]
  refine ⟨?_, ?_⟩
  · rw [degree_add_eq_left_of_degree_lt hrest, degree_monomial _ hne]
  · rw [leadingCoeff_add_of_degree_lt' hrest, leadingCoeff_monomial]

/-- A polynomial without terms is zero, and no other one is. -/
theorem toPolynomial_eq_zero_iff : p.toPolynomial = 0 ↔ p.terms = [] := by
  constructor
  · intro h
    cases hts : p.terms with
    | nil => rfl
    | cons t ts =>
      have hdegree := (degree_of_terms hts).1
      rw [h, degree_zero] at hdegree
      cases hdegree
  · intro h
    rw [toPolynomial, h, sumTerms_nil]

theorem isZero_iff : p.isZero = true ↔ p.toPolynomial = 0 := by
  rw [isZero, List.isEmpty_iff, toPolynomial_eq_zero_iff]

theorem toPolynomial_of_isOne (h : p.isOne = true) : p.toPolynomial = 1 := by
  rw [toPolynomial, beq_iff_eq.1 h]
  simp

theorem size_eq_zero : p.size = 0 ↔ p.toPolynomial = 0 := by
  rw [size_eq_zero_iff, toPolynomial_eq_zero_iff]

/-- The size is one more than the degree. -/
theorem size_eq (h : p.toPolynomial ≠ 0) : p.size = p.toPolynomial.natDegree + 1 := by
  cases hts : p.terms with
  | nil => exact absurd (toPolynomial_eq_zero_iff.2 hts) h
  | cons t ts =>
    rw [size, hts, natDegree_eq_of_degree_eq_some (degree_of_terms hts).1]

theorem leading_eq (p : Poly) : p.leading = p.toPolynomial.leadingCoeff := by
  cases hts : p.terms with
  | nil => rw [toPolynomial_eq_zero_iff.2 hts, leading, hts, leadingCoeff_zero]
  | cons t ts => rw [leading, hts, (degree_of_terms hts).2]

/-- The size bounds the degree. -/
theorem degree_lt_iff_size_le : p.toPolynomial.degree < n ↔ p.size ≤ n := by
  by_cases hp : p.toPolynomial = 0
  · rw [size_eq_zero.2 hp, hp, degree_zero]
    exact ⟨fun _ => Nat.zero_le n, fun _ => WithBot.bot_lt_coe n⟩
  · rw [size_eq hp, degree_eq_natDegree hp, Nat.cast_lt, Nat.succ_le_iff]

theorem natDegree_le_iff_size_le : p.toPolynomial.natDegree ≤ n ↔ p.size ≤ n + 1 := by
  rw [← degree_lt_iff_size_le, natDegree_le_iff_degree_le, ← Order.lt_succ_iff]
  rfl

/-- A product whose degree is a word is the product in the ring. -/
theorem toPolynomial_mul_of_size_le (h : p.size + q.size ≤ wordSize + 1) :
    (p * q).toPolynomial = p.toPolynomial * q.toPolynomial := by
  rw [toPolynomial_mul]
  refine wrap_of_degree_lt ?_
  by_cases hp : p.toPolynomial = 0
  · rw [hp, zero_mul, degree_zero]
    exact WithBot.bot_lt_coe _
  by_cases hq : q.toPolynomial = 0
  · rw [hq, mul_zero, degree_zero]
    exact WithBot.bot_lt_coe _
  rw [size_eq hp, size_eq hq] at h
  rw [degree_mul, degree_eq_natDegree hp, degree_eq_natDegree hq, ← Nat.cast_add, Nat.cast_lt]
  omega

@[simp] theorem toPolynomial_const_mul (c : Rat) (p : Poly) :
    (const c * p).toPolynomial = C c * p.toPolynomial := by
  have := size_const_le c
  have := size_le_wordSize p
  rw [toPolynomial_mul_of_size_le (by omega), toPolynomial_const]

@[simp] theorem toPolynomial_mul_const (p : Poly) (c : Rat) :
    (p * const c).toPolynomial = p.toPolynomial * C c := by
  have := size_const_le c
  have := size_le_wordSize p
  rw [toPolynomial_mul_of_size_le (by omega), toPolynomial_const]

@[simp] theorem toPolynomial_one_mul (p : Poly) : (one * p).toPolynomial = p.toPolynomial := by
  rw [one, toPolynomial_const_mul, map_one, one_mul]

/-- A power whose degree is a word is the power in the ring. -/
theorem toPolynomial_pow_of_lt (h : n * (p.size - 1) < wordSize) :
    (p.pow n).toPolynomial = p.toPolynomial ^ n := by
  rw [toPolynomial_pow]
  refine wrap_of_degree_lt ?_
  have hdegree : p.toPolynomial.natDegree ≤ p.size - 1 := by
    rw [natDegree_le_iff_size_le]
    omega
  calc (p.toPolynomial ^ n).degree ≤ ((p.toPolynomial ^ n).natDegree : ℕ) := degree_le_natDegree
    _ ≤ (n * (p.size - 1) : ℕ) := by
      rw [natDegree_pow]
      exact_mod_cast Nat.mul_le_mul_left n hdegree
    _ < wordSize := by exact_mod_cast h

/-- A polynomial is smaller than another one exactly when its degree is. -/
theorem size_lt_size_iff (hq : q.toPolynomial ≠ 0) :
    p.size < q.size ↔ p.toPolynomial.degree < q.toPolynomial.degree := by
  rw [size_eq hq]
  by_cases hp : p.toPolynomial = 0
  · rw [size_eq_zero.2 hp, hp, degree_zero, bot_lt_iff_ne_bot, Ne, degree_eq_bot]
    exact ⟨fun _ => hq, fun _ => Nat.succ_pos _⟩
  · rw [size_eq hp, degree_eq_natDegree hp, degree_eq_natDegree hq, Nat.cast_lt]
    omega

/-- Canonical lists with the same sum are equal. -/
theorem toPolynomial_injective : Function.Injective toPolynomial := by
  intro p q h
  induction hn : p.size using Nat.strongRecOn generalizing p q with
  | ind n ih =>
    cases hp : p.terms with
    | nil =>
      have hq : q.terms = [] := by
        rw [← toPolynomial_eq_zero_iff, ← h, toPolynomial_eq_zero_iff, hp]
      exact Poly.ext (hp.trans hq.symm)
    | cons t ts =>
      cases hq : q.terms with
      | nil =>
        rw [← toPolynomial_eq_zero_iff, ← h, toPolynomial_eq_zero_iff, hp] at hq
        cases hq
      | cons u us =>
        have hfst : t.1 = u.1 := by
          have hdegree := (degree_of_terms hp).1
          rw [h, (degree_of_terms hq).1] at hdegree
          exact_mod_cast hdegree.symm
        have hsnd : t.2 = u.2 := by
          rw [← (degree_of_terms hp).2, h, (degree_of_terms hq).2]
        obtain rfl : t = u := Prod.ext hfst hsnd
        have hrest : p.reductum.toPolynomial = q.reductum.toPolynomial := by
          rw [toPolynomial_of_terms hp, toPolynomial_of_terms hq] at h
          exact add_left_cancel h
        have hne : p.size ≠ 0 := by simp [size, hp]
        have heq := ih _ (hn ▸ size_reductum_lt hne) hrest rfl
        have htails : ts = us := by
          have := congrArg terms heq
          simpa [reductum, hp, hq] using this
        exact Poly.ext (by rw [hp, hq, htails])

theorem mul_one_eq (p : Poly) : p * one = p := by
  apply toPolynomial_injective
  rw [one, toPolynomial_mul_const, map_one, mul_one]

theorem one_pow_eq (n : ℕ) : one.pow n = one := by
  apply toPolynomial_injective
  rw [toPolynomial_pow, toPolynomial_one, one_pow, ← toPolynomial_one, wrap_toPolynomial]

/-- The powers of a power of the variable are powers of the variable, with exponents that wrap
around. -/
theorem monomial_pow (m n : ℕ) : (monomial m 1).pow n = monomial (m * n) 1 := by
  apply toPolynomial_injective
  rw [toPolynomial_pow, toPolynomial_monomial, wrap_pow_congr (wrap_wrap _),
    Polynomial.monomial_pow, one_pow, toPolynomial_monomial]

/-- Multiplied exponents that make up all words are no exponents at all. -/
theorem monomial_wordSize : monomial wordSize 1 = one := by
  apply toPolynomial_injective
  rw [toPolynomial_monomial, wrap_monomial, Nat.mod_self, monomial_zero_left, map_one,
    toPolynomial_one]

theorem toPolynomial_ne_zero (h : p ≠ zero) : p.toPolynomial ≠ 0 :=
  fun hz => h (toPolynomial_injective hz)

/-! ## Coefficients and values -/

/-- The magnitude of a rational is its absolute value. -/
theorem rat_abs_eq (r : Rat) : r.abs = |r| := by
  rcases le_total 0 r with h | h
  · rw [Rat.abs_of_nonneg h, abs_of_nonneg h]
  · rw [Rat.abs_of_nonpos h, abs_of_nonpos h]

/-- Looking an exponent up gives its coefficient. -/
theorem lookup_eq_coeff {ts : List (Nat × Rat)} (h : ts.Pairwise fun s t => t.1 < s.1) (n : Nat) :
    (ts.lookup n).getD 0 = (sumTerms ts).coeff n := by
  induction ts with
  | nil => rfl
  | cons t ts ih =>
    obtain ⟨hlt, hts⟩ := List.pairwise_cons.1 h
    rw [sumTerms_cons, coeff_add, coeff_monomial, ← ih hts]
    by_cases hn : t.1 = n
    · have hnone : ts.lookup n = none := by
        rw [List.lookup_eq_none_iff]
        intro s hs
        have := hlt s hs
        exact bne_iff_ne.2 (by omega)
      rw [if_pos hn, hnone, ← hn, List.lookup_cons_self]
      simp
    · have hne : (n == t.1) = false := beq_eq_false_iff_ne.2 (Ne.symm hn)
      rw [if_neg hn, zero_add, List.lookup_cons, hne]

/-- The coefficients of a list are those of its sum. -/
theorem coeff_eq (p : Poly) (n : Nat) : p.coeff n = p.toPolynomial.coeff n :=
  lookup_eq_coeff p.canonical.1 n

theorem foldl_eval (ts : List (Nat × Rat)) (a s : Rat) :
    ts.foldl (fun s t => s + t.2 * a ^ t.1) s = s + (sumTerms ts).eval a := by
  induction ts generalizing s with
  | nil => simp
  | cons t ts ih =>
    rw [List.foldl_cons, ih, sumTerms_cons, Polynomial.eval_add, eval_monomial, add_assoc]

/-- The value of a list at a point is that of its sum. -/
@[simp] theorem eval_eq (p : Poly) (a : Rat) : p.eval a = p.toPolynomial.eval a := by
  rw [eval, foldl_eval, zero_add, toPolynomial]

theorem toPolynomial_monic_of_ne_zero (h : p.toPolynomial ≠ 0) :
    p.monic.toPolynomial = C p.toPolynomial.leadingCoeff⁻¹ * p.toPolynomial := by
  have hlead : p.leading ≠ 0 := by rw [leading_eq]; exact leadingCoeff_ne_zero.2 h
  rw [monic, if_neg hlead, toPolynomial_scale, leading_eq, one_div]

theorem monic_of_toPolynomial_eq_zero (h : p.toPolynomial = 0) : p.monic = p := by
  rw [monic, if_pos (by rw [leading_eq, h, leadingCoeff_zero])]

theorem monic_toPolynomial_monic (h : p.toPolynomial ≠ 0) : p.monic.toPolynomial.Monic := by
  rw [toPolynomial_monic_of_ne_zero h]
  exact monic_C_mul_of_mul_leadingCoeff_eq_one (inv_mul_cancel₀ (leadingCoeff_ne_zero.2 h))

/-- Making a polynomial monic multiplies it by a unit. -/
theorem associated_monic (p : Poly) : Associated p.monic.toPolynomial p.toPolynomial := by
  by_cases h : p.toPolynomial = 0
  · rw [monic_of_toPolynomial_eq_zero h]
  · rw [toPolynomial_monic_of_ne_zero h]
    exact associated_unit_mul_left _ _
      (isUnit_C.2 (isUnit_iff_ne_zero.2 (inv_ne_zero (leadingCoeff_ne_zero.2 h))))

end MarketAlgebra.Poly
