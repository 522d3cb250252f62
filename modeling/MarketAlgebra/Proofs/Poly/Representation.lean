import MarketAlgebra.Proofs.Poly.Expression

/-!
# Polynomials and their representation

A polynomial over the rationals whose degree is a word has exactly one list of terms (`Represents`):
the list holds the coefficients that are not zero and nothing else, so degree and leading
coefficient are read off its head, and equal polynomials have equal lists.  All operations work on
these lists, and each of them is the operation of the ring of polynomials
(`polynomials_are_represented`).  A product or a power whose degree is no word is the remainder by
`X ^ wordSize - 1` instead, and the powers of a polynomial can be as small as `1`
(`power_wraps_around`).

The list of a sum or a product arises by adding one term after the other (`addTerm`), which removes
an entry that cancels.  Scaling, negation, derivative and integral change every term by itself.  No
entry of their lists has to be removed or moved: the lists are canonical as they are written down
(`terms_scale`, `terms_neg`, `terms_derivative` and `terms_integral`).
-/

namespace MarketAlgebra.Poly

open Polynomial

variable {p q : Poly}

/-! ## Lists that are written down term by term -/

/-- A polynomial has one canonical list of terms. -/
theorem terms_eq_of_sumTerms {ts : List (Nat × Rat)} (hts : Canonical ts)
    (h : sumTerms ts = p.toPolynomial) : p.terms = ts := by
  have heq : p = ⟨ts, hts⟩ := toPolynomial_injective h.symm
  rw [heq]

/-- Changing every term by itself keeps a list canonical when the exponents stay words in order and
no coefficient becomes zero. -/
theorem Canonical.map {ts : List (Nat × Rat)} (hts : Canonical ts) {f : Nat × Rat → Nat × Rat}
    (hexponent : ∀ s ∈ ts, ∀ t ∈ ts, t.1 < s.1 → (f t).1 < (f s).1)
    (hcoeff : ∀ t ∈ ts, (f t).2 ≠ 0) (hword : ∀ t ∈ ts, (f t).1 < wordSize) :
    Canonical (ts.map f) where
  decreasing :=
    List.pairwise_map.2 (hts.decreasing.imp_of_mem fun hs ht hlt => hexponent _ hs _ ht hlt)
  nonzero := by
    intro s hs
    obtain ⟨t, ht, rfl⟩ := List.mem_map.1 hs
    exact hcoeff t ht
  word := by
    intro s hs
    obtain ⟨t, ht, rfl⟩ := List.mem_map.1 hs
    exact hword t ht

theorem Canonical.filter {ts : List (Nat × Rat)} (hts : Canonical ts) (keep : Nat × Rat → Bool) :
    Canonical (ts.filter keep) where
  decreasing := hts.decreasing.filter keep
  nonzero t ht := hts.nonzero t (List.mem_filter.1 ht).1
  word t ht := hts.word t (List.mem_filter.1 ht).1

/-- Scaling by a rational other than zero changes the coefficients one by one. -/
theorem terms_scale {c : Rat} (hc : c ≠ 0) (p : Poly) :
    (scale c p).terms = p.terms.map fun t => (t.1, c * t.2) := by
  refine terms_eq_of_sumTerms (p.canonical.map (fun _ _ _ _ hlt => hlt) (fun t ht => ?_)
    p.canonical.word) ?_
  · exact mul_ne_zero hc (p.canonical.nonzero t ht)
  · have hterms := sumTerms_map_timesTerm 0 c p.terms
    simp only [Nat.add_zero] at hterms
    rw [hterms, toPolynomial_scale, monomial_zero_left, toPolynomial]

/-- Negation changes the signs one by one. -/
theorem terms_neg (p : Poly) : (-p).terms = p.terms.map fun t => (t.1, -t.2) := by
  change (scale (-1) p).terms = _
  rw [terms_scale (neg_ne_zero.2 one_ne_zero)]
  simp only [neg_one_mul]

/-- The derivative drops the constant term and changes the other terms one by one. -/
theorem terms_derivative (p : Poly) : p.derivative.terms =
    (p.terms.filter fun t => 0 < t.1).map fun t => (t.1 - 1, t.2 * (t.1 : Rat)) := by
  have hpos : ∀ t ∈ p.terms.filter (fun t => 0 < t.1), 0 < t.1 := fun t ht =>
    of_decide_eq_true (List.mem_filter.1 ht).2
  have hcanonical := p.canonical.filter fun t => 0 < t.1
  have hderivative : ∀ ts : List (Nat × Rat),
      sumTerms ((ts.filter fun t => 0 < t.1).map fun t => (t.1 - 1, t.2 * (t.1 : Rat))) =
        Polynomial.derivative (sumTerms ts) := by
    intro ts
    induction ts with
    | nil => rw [List.filter_nil, List.map_nil, sumTerms_nil, Polynomial.derivative_zero]
    | cons t ts ih =>
      rw [sumTerms_cons, Polynomial.derivative_add, Polynomial.derivative_monomial, ← ih]
      by_cases ht : 0 < t.1
      · rw [List.filter_cons, if_pos (decide_eq_true ht), List.map_cons, sumTerms_cons]
      · have hzero : t.1 = 0 := Nat.eq_zero_of_not_pos ht
        rw [List.filter_cons, if_neg (by simpa using hzero), hzero, Nat.cast_zero, mul_zero,
          map_zero, zero_add]
  refine terms_eq_of_sumTerms (hcanonical.map (fun s _ t ht hlt => ?_) (fun t ht => ?_)
    fun t ht => ?_) ?_
  · have := hpos t ht
    simp only
    omega
  · have hne := hcanonical.nonzero t ht
    exact mul_ne_zero hne (Nat.cast_ne_zero.2 (hpos t ht).ne')
  · exact (Nat.sub_le _ _).trans_lt (hcanonical.word t ht)
  · rw [hderivative, toPolynomial_derivative, toPolynomial]

/-- The integral changes the terms one by one. -/
theorem terms_integral (hp : p.isIntegrable = true) :
    p.integral.terms = p.terms.map fun t => (t.1 + 1, t.2 / ((t.1 + 1 : Nat) : Rat)) := by
  refine terms_eq_of_sumTerms (p.canonical.map (fun _ _ _ _ hlt => Nat.succ_lt_succ hlt)
    (fun t ht => ?_) fun t ht => ?_) ?_
  · exact div_ne_zero (p.canonical.nonzero t ht) (Nat.cast_ne_zero.2 (Nat.succ_ne_zero t.1))
  · exact (Nat.succ_le_of_lt (size_le_iff.1 le_rfl t ht)).trans_lt (isIntegrable_iff.1 hp)
  · rw [toPolynomial_integral_eq hp, integralTerms]

/-! ## Lists that are merged -/

/-- The sum with a single term.  A coefficient that cancels leaves no entry behind. -/
def addTerm (p : Poly) (t : Nat × Rat) : Poly := p + monomial t.1 t.2

/-- Adding terms one after the other adds their sum. -/
theorem toPolynomial_foldl_addTerm (ts : List (Nat × Rat)) (p : Poly) :
    (ts.foldl addTerm p).toPolynomial = p.toPolynomial + wrap (sumTerms ts) := by
  induction ts generalizing p with
  | nil =>
    rw [List.foldl_nil, sumTerms_nil, ← toPolynomial_zero, wrap_toPolynomial, toPolynomial_zero,
      add_zero]
  | cons t ts ih =>
    rw [List.foldl_cons, ih, addTerm, toPolynomial_add, toPolynomial_monomial, sumTerms_cons,
      wrap_add, add_assoc]

/-- A sum adds the terms of its second operand to the first one. -/
theorem add_eq_foldl_addTerm (p q : Poly) : p + q = q.terms.foldl addTerm p := by
  apply toPolynomial_injective
  rw [toPolynomial_foldl_addTerm, toPolynomial_add, ← toPolynomial, wrap_toPolynomial]

/-- A product adds the products of all pairs of terms. -/
theorem mul_eq_foldl_addTerm (p q : Poly) :
    p * q = p.terms.foldl (fun r s =>
      (q.terms.map fun t => (s.1 + t.1, s.2 * t.2)).foldl addTerm r) zero := by
  have hrow : ∀ s : Nat × Rat, sumTerms (q.terms.map fun t => (s.1 + t.1, s.2 * t.2)) =
      Polynomial.monomial s.1 s.2 * q.toPolynomial := by
    intro s
    rw [toPolynomial, ← sumTerms_map_timesTerm]
    simp only [Nat.add_comm]
  have hrows : ∀ (ss : List (Nat × Rat)) (r : Poly),
      (ss.foldl (fun r s =>
        (q.terms.map fun t => (s.1 + t.1, s.2 * t.2)).foldl addTerm r) r).toPolynomial =
      r.toPolynomial + wrap (sumTerms ss * q.toPolynomial) := by
    intro ss
    induction ss with
    | nil =>
      intro r
      rw [List.foldl_nil, sumTerms_nil, zero_mul, ← toPolynomial_zero, wrap_toPolynomial,
        toPolynomial_zero, add_zero]
    | cons s ss ih =>
      intro r
      rw [List.foldl_cons, ih, toPolynomial_foldl_addTerm, hrow, sumTerms_cons, add_mul, wrap_add,
        add_assoc]
  refine toPolynomial_injective ?_
  rw [hrows, toPolynomial_mul, toPolynomial_zero, zero_add]
  rfl

example : ((x + one) * (x - one)).terms = [(2, 1), (0, -1)] := by decide +kernel

/-! ## Values -/

/-- The value at a rational point by Horner's rule, over all coefficients from the leading one down
to the constant term. -/
def horner (p : Poly) (a : Rat) : Rat :=
  ((List.range p.size).map p.coeff).foldr (fun c value => value * a + c) 0

theorem foldr_horner (n : Nat) (f : Nat → Rat) (a : Rat) :
    ((List.range n).map f).foldr (fun c value => value * a + c) 0 =
      ∑ i ∈ Finset.range n, f i * a ^ i := by
  induction n generalizing f with
  | zero => rfl
  | succ n ih =>
    rw [List.range_succ_eq_map, List.map_cons, List.map_map, List.foldr_cons, ih,
      Finset.sum_range_succ', Finset.sum_mul, pow_zero, mul_one]
    simp only [Function.comp_apply, pow_succ, mul_assoc]

/-- Horner's rule gives the value. -/
theorem horner_eq (p : Poly) (a : Rat) : p.horner a = p.toPolynomial.eval a := by
  rw [horner, foldr_horner]
  by_cases hp : p.toPolynomial = 0
  · rw [size_eq_zero.2 hp, hp, Finset.sum_range_zero, eval_zero]
  · rw [eval_eq_sum_range' (n := p.size) (by rw [size_eq hp]; exact Nat.lt_succ_self _)]
    simp only [coeff_eq]

/-! ## The ring of polynomials -/

/-- The list of terms is the one of a polynomial: it holds the coefficients that are not zero with
descending exponents, and degree, leading coefficient, coefficients and values are those of the
polynomial. -/
structure Represents (p : Poly) (F : ℚ[X]) : Prop where
  mem_terms_iff : ∀ n c, (n, c) ∈ p.terms ↔ c ≠ 0 ∧ F.coeff n = c
  descending : p.terms.Pairwise fun s t => t.1 < s.1
  degree : p.degree? = if F = 0 then none else some F.natDegree
  leading : p.leading = F.leadingCoeff
  coeff : ∀ n, p.coeff n = F.coeff n
  eval : ∀ a, p.eval a = F.eval a
  horner : ∀ a, p.horner a = F.eval a

/-- The entries of a list are the coefficients that are not zero. -/
theorem mem_terms_iff (p : Poly) {n : Nat} {c : Rat} :
    (n, c) ∈ p.terms ↔ c ≠ 0 ∧ p.toPolynomial.coeff n = c := by
  have hlookup := coeff_eq p n
  rw [Poly.coeff] at hlookup
  constructor
  · intro h
    refine ⟨p.canonical.nonzero _ h, ?_⟩
    have hfound : p.terms.lookup n = some c := by
      obtain ⟨ss, ts, hterms⟩ := List.append_of_mem h
      have hpairwise := p.canonical.decreasing
      rw [hterms, List.pairwise_append] at hpairwise
      rw [List.lookup_eq_some_iff]
      refine ⟨ss, ts, hterms, fun s hs => bne_iff_ne.2 ?_⟩
      have := hpairwise.2.2 s hs (n, c) List.mem_cons_self
      exact Nat.ne_of_lt this
    rw [← hlookup, hfound, Option.getD_some]
  · rintro ⟨hne, rfl⟩
    rw [← hlookup] at hne ⊢
    cases hfound : p.terms.lookup n with
    | none => exact absurd (by rw [hfound, Option.getD_none]) hne
    | some c =>
      obtain ⟨ss, ts, hterms, -⟩ := List.lookup_eq_some_iff.1 hfound
      rw [hterms, Option.getD_some]
      exact List.mem_append_right _ List.mem_cons_self

theorem degree?_eq (p : Poly) : p.degree? =
    if p.toPolynomial = 0 then none else some p.toPolynomial.natDegree := by
  rw [degree?]
  cases hts : p.terms with
  | nil => rw [if_pos (toPolynomial_eq_zero_iff.2 hts)]; rfl
  | cons t ts =>
    have hne : p.toPolynomial ≠ 0 := by
      rw [Ne, toPolynomial_eq_zero_iff, hts]
      exact List.cons_ne_nil t ts
    rw [if_neg hne, natDegree_eq_of_degree_eq_some (degree_of_terms hts).1]
    rfl

theorem represents_toPolynomial (p : Poly) : Represents p p.toPolynomial where
  mem_terms_iff _ _ := mem_terms_iff p
  descending := p.canonical.decreasing
  degree := degree?_eq p
  leading := leading_eq p
  coeff := coeff_eq p
  eval := eval_eq p
  horner := horner_eq p

/-- The polynomials that have a list of terms are those whose degree is a word. -/
theorem exists_toPolynomial_eq_iff {F : ℚ[X]} :
    (∃ p : Poly, p.toPolynomial = F) ↔ F.degree < wordSize := by
  have hwrap : ∃ p : Poly, p.toPolynomial = wrap F := by
    induction F using Polynomial.induction_on' with
    | add F G hF hG =>
      obtain ⟨⟨p, hp⟩, q, hq⟩ := And.intro hF hG
      exact ⟨p + q, by rw [toPolynomial_add, hp, hq, wrap_add]⟩
    | monomial n c => exact ⟨monomial n c, toPolynomial_monomial n c⟩
  constructor
  · rintro ⟨p, rfl⟩
    exact degree_toPolynomial_lt p
  · intro h
    rwa [wrap_of_degree_lt h] at hwrap

theorem wrap_eq (F : ℚ[X]) : wrap F = F %ₘ (X ^ wordSize - 1) := by
  have hone : ∀ N : ℕ, (X ^ N - C 1 : ℚ[X]) = X ^ N - 1 := fun N => by rw [map_one]
  rw [wrap, hone]

/-- Only a polynomial whose degree is a word stays the same when its exponents wrap around. -/
theorem wrap_eq_self_iff {F : ℚ[X]} : wrap F = F ↔ F.degree < wordSize :=
  ⟨fun h => h ▸ degree_wrap_lt F, wrap_of_degree_lt⟩

theorem toPolynomial_mul_eq_iff : (p * q).toPolynomial = p.toPolynomial * q.toPolynomial ↔
    (p.toPolynomial * q.toPolynomial).degree < wordSize := by
  rw [toPolynomial_mul, wrap_eq_self_iff]

theorem toPolynomial_pow_eq_iff {n : Nat} : (p.pow n).toPolynomial = p.toPolynomial ^ n ↔
    (p.toPolynomial ^ n).degree < wordSize := by
  rw [toPolynomial_pow, wrap_eq_self_iff]

theorem isIntegrable_iff_degree_lt :
    p.isIntegrable = true ↔ p.toPolynomial.degree < (wordSize - 1 : ℕ) := by
  have := wordSize_pos
  rw [isIntegrable_iff, degree_lt_iff_size_le]
  omega

section

variable (hp : p.isIntegrable = true)
include hp

/-- The integral has no constant term. -/
theorem coeff_integral_zero : p.integral.coeff 0 = 0 := by
  rw [coeff_eq, coeff_zero_eq_eval_zero, ← eval_eq, eval_zero_integral hp]

/-- The other coefficients of the integral are those of the polynomial, each divided by its new
exponent. -/
theorem coeff_integral_succ (n : Nat) :
    p.integral.coeff (n + 1) = p.coeff n / (n + 1 : Nat) := by
  have hcoeff := congrArg (Polynomial.coeff · n) (derivative_sumTerms_integral p.terms).1
  simp only [Polynomial.coeff_derivative] at hcoeff
  have hne : ((n + 1 : Nat) : ℚ) ≠ 0 := Nat.cast_ne_zero.2 (Nat.succ_ne_zero n)
  rw [coeff_eq, coeff_eq, toPolynomial_integral_eq hp, eq_div_iff hne, toPolynomial, ← hcoeff]
  push_cast
  rfl

/-- The derivative undoes the integral. -/
theorem derivative_integral : p.integral.derivative = p := by
  refine toPolynomial_injective ?_
  rw [toPolynomial_derivative, toPolynomial_integral_eq hp]
  exact (derivative_sumTerms_integral p.terms).1

end

/-- The derivative has no term with the last exponent, so it undoes the integral only without. -/
theorem derivative_integral_eq_iff : p.integral.derivative = p ↔ p.isIntegrable = true := by
  refine ⟨fun h => ?_, derivative_integral⟩
  have hdegree := (degree_lt_iff_coeff_zero _ _).1 (degree_toPolynomial_lt p.integral)
  rw [isIntegrable_iff_degree_lt, degree_lt_iff_coeff_zero]
  intro m hm
  rw [← h, toPolynomial_derivative, Polynomial.coeff_derivative, hdegree _ (by omega), zero_mul]

/-- The coefficients determine a polynomial. -/
theorem eq_iff_coeff : p = q ↔ ∀ n, p.coeff n = q.coeff n := by
  simp only [coeff_eq, ← Polynomial.ext_iff, toPolynomial_injective.eq_iff]

/-- The polynomials and their operations are those of the ring of polynomials over the rationals, as
far as degrees are words.  The lists of terms are canonical, whatever operations they come from, so
equality of lists is equality of polynomials; the operations are those of the ring and of its formal
calculus; and evaluation is its homomorphism at every rational point.  Products and powers are those
of the ring modulo `X ^ wordSize - 1`, and those of the ring itself exactly when their degrees are
words; the derivative undoes the integral exactly when there is a word above the degree.  No list
has to be cleaned up afterwards: an operation on single terms may write its terms down, and sums and
products may add theirs one after the other. -/
theorem polynomials_are_represented (p q : Poly) (n : ℕ) (c a : Rat) :
    (Represents p p.toPolynomial ∧ (p.toPolynomial = q.toPolynomial ↔ p = q) ∧
      (p = q ↔ ∀ m, p.coeff m = q.coeff m) ∧
      ∀ F : ℚ[X], (∃ r : Poly, r.toPolynomial = F) ↔ F.degree < wordSize) ∧
    (zero.toPolynomial = 0 ∧ one.toPolynomial = 1 ∧ x.toPolynomial = X ∧
      (const c).toPolynomial = C c) ∧
    ((p + q).toPolynomial = p.toPolynomial + q.toPolynomial ∧
      (p - q).toPolynomial = p.toPolynomial - q.toPolynomial ∧
      (-p).toPolynomial = -p.toPolynomial ∧ (scale c p).toPolynomial = C c * p.toPolynomial) ∧
    ((p * q).toPolynomial = (p.toPolynomial * q.toPolynomial) %ₘ (X ^ wordSize - 1) ∧
      ((p * q).toPolynomial = p.toPolynomial * q.toPolynomial ↔
        (p.toPolynomial * q.toPolynomial).degree < wordSize)) ∧
    ((p.pow n).toPolynomial = p.toPolynomial ^ n %ₘ (X ^ wordSize - 1) ∧
      ((p.pow n).toPolynomial = p.toPolynomial ^ n ↔ (p.toPolynomial ^ n).degree < wordSize)) ∧
    (p.derivative.toPolynomial = Polynomial.derivative p.toPolynomial ∧
      (p.isIntegrable = true ↔ p.toPolynomial.degree < (wordSize - 1 : ℕ)) ∧
      (p.integral.derivative = p ↔ p.isIntegrable = true) ∧
      (p.isIntegrable = true → p.integral.coeff 0 = 0 ∧
        ∀ m, p.integral.coeff (m + 1) = p.coeff m / (m + 1 : Nat))) ∧
    (one.eval a = 1 ∧ x.eval a = a ∧ (p + q).eval a = p.eval a + q.eval a ∧
      ((p.toPolynomial * q.toPolynomial).degree < wordSize →
        (p * q).eval a = p.eval a * q.eval a)) ∧
    ((-p).terms = p.terms.map (fun t => (t.1, -t.2)) ∧
      (c ≠ 0 → (scale c p).terms = p.terms.map fun t => (t.1, c * t.2)) ∧
      p.derivative.terms =
        (p.terms.filter fun t => 0 < t.1).map (fun t => (t.1 - 1, t.2 * (t.1 : Rat))) ∧
      (p.isIntegrable = true →
        p.integral.terms = p.terms.map fun t => (t.1 + 1, t.2 / ((t.1 + 1 : Nat) : Rat)))) ∧
    p + q = q.terms.foldl addTerm p ∧
      p * q = p.terms.foldl (fun r s =>
        (q.terms.map fun t => (s.1 + t.1, s.2 * t.2)).foldl addTerm r) zero := by
  refine ⟨?lists, ?constants, ?linear, ?product, ?power, ?calculus, ?values, ?terms, ?merged⟩
  case lists =>
    exact ⟨represents_toPolynomial p, toPolynomial_injective.eq_iff, eq_iff_coeff,
      fun _ => exists_toPolynomial_eq_iff⟩
  case constants =>
    exact ⟨toPolynomial_zero, toPolynomial_one, toPolynomial_x, toPolynomial_const c⟩
  case linear =>
    exact ⟨toPolynomial_add p q, toPolynomial_sub p q, toPolynomial_neg p, toPolynomial_scale c p⟩
  case product => exact ⟨by rw [toPolynomial_mul, wrap_eq], toPolynomial_mul_eq_iff⟩
  case power => exact ⟨by rw [toPolynomial_pow, wrap_eq], toPolynomial_pow_eq_iff⟩
  case calculus =>
    exact ⟨toPolynomial_derivative p, isIntegrable_iff_degree_lt, derivative_integral_eq_iff,
      fun hp => ⟨coeff_integral_zero hp, coeff_integral_succ hp⟩⟩
  case values =>
    refine ⟨by simp, by simp, by simp, fun h => ?_⟩
    rw [eval_eq, toPolynomial_mul_eq_iff.2 h, eval_mul, eval_eq, eval_eq]
  case terms =>
    exact ⟨terms_neg p, fun hc => terms_scale hc p, terms_derivative p, terms_integral⟩
  case merged => exact ⟨add_eq_foldl_addTerm p q, mul_eq_foldl_addTerm p q⟩

/-- The square of the variable has the degree of a word, and the variable has an integral. -/
theorem polynomials_are_represented_of_square :
    (x.toPolynomial * x.toPolynomial).degree < wordSize ∧ (x * x).toPolynomial = X * X ∧
      x.isIntegrable = true ∧ x.integral.derivative = x := by
  have hdegree : (x.toPolynomial * x.toPolynomial).degree < wordSize := by
    rw [toPolynomial_x, ← sq, degree_X_pow]
    exact_mod_cast (show 2 < wordSize by decide)
  have hintegrable : x.isIntegrable = true := by decide
  obtain ⟨-, -, -, ⟨-, hproduct⟩, -, ⟨-, -, hintegral, -⟩, -⟩ :=
    polynomials_are_represented x x 0 0 0
  refine ⟨hdegree, ?_, hintegrable, hintegral.2 hintegrable⟩
  rw [hproduct.2 hdegree, toPolynomial_x]

/-- The exponents of the powers of `x ^ 4` wrap around. -/
theorem power_wraps_around :
    (monomial 4 1).pow (2 ^ 62) = one ∧
      (monomial 4 1).toPolynomial ^ 2 ^ 62 ≠ one.toPolynomial := by
  constructor
  · rw [monomial_pow, ← monomial_wordSize]
    rfl
  · rw [toPolynomial_monomial_of_lt (by decide), toPolynomial_one, Polynomial.monomial_pow, one_pow,
      ← monomial_zero_one]
    intro h
    have := congrArg Polynomial.natDegree h
    rw [natDegree_monomial_eq _ one_ne_zero, natDegree_monomial_eq _ one_ne_zero] at this
    omega

end MarketAlgebra.Poly
