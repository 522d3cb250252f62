/-!
# Polynomials in one variable

A polynomial with rational coefficients is the list of its terms, highest exponent first.  No
exponent is repeated and no coefficient is zero (`Poly.Canonical`), so two polynomials are equal
exactly when their lists are, the first term is the leading one, and a polynomial with a large
exponent is as small as its terms are few.

An exponent is a machine word.  Exponents are added modulo `Poly.wordSize`, so the product of
polynomials is their product in the ring only while its degree is a word, and powers of powers can
be written that leave this range.  No other operation makes an exponent larger, except the integral,
for which the largest exponent has no successor.  (A build with overflow checks stops where an
exponent would wrap around.)

All operations are built from two: a single term (`Poly.monomial`), which is empty when its
coefficient is zero, and addition, which merges two lists (`Poly.addTerms`).  `Poly.size` is one
more than the degree, and zero for the zero polynomial.  The recursions of division and of the
Euclidean algorithm are founded on it.
-/

namespace MarketAlgebra

namespace Poly

/-! ## Lists of terms -/

/-- The number of machine words. -/
def wordSize : Nat := UInt64.size

theorem wordSize_pos : 0 < wordSize := by decide

/-- Exponents are words that decrease along the list, and no coefficient is zero. -/
structure Canonical (ts : List (Nat × Rat)) : Prop where
  decreasing : ts.Pairwise fun s t => t.1 < s.1
  nonzero : ∀ t ∈ ts, t.2 ≠ 0
  word : ∀ t ∈ ts, t.1 < wordSize

/-- The sum of two lists of terms, in one pass over both. -/
def addTerms : List (Nat × Rat) → List (Nat × Rat) → List (Nat × Rat)
  | [], ts => ts
  | ss, [] => ss
  | (m, a) :: ss, (n, b) :: ts =>
    if n < m then (m, a) :: addTerms ss ((n, b) :: ts)
    else if m < n then (n, b) :: addTerms ((m, a) :: ss) ts
    else if a + b = 0 then addTerms ss ts
    else (m, a + b) :: addTerms ss ts
termination_by ss ts => ss.length + ts.length

/-- Adding brings in no new exponent. -/
theorem exponent_of_mem_addTerms {ss ts : List (Nat × Rat)} {t : Nat × Rat}
    (h : t ∈ addTerms ss ts) : (∃ s ∈ ss, s.1 = t.1) ∨ ∃ s ∈ ts, s.1 = t.1 := by
  fun_induction addTerms ss ts with
  | case1 ts => exact .inr ⟨t, h, rfl⟩
  | case2 ss => exact .inl ⟨t, h, rfl⟩
  | case3 m a ss n b ts hlt ih | case4 m a ss n b ts _ hlt ih | case5 m a ss n b ts _ _ hz ih =>
    grind
  | case6 m a ss n b ts _ _ hz ih =>
    rcases List.mem_cons.1 h with rfl | h
    · exact .inl ⟨(m, a), by simp, rfl⟩
    · exact (ih h).imp (fun ⟨s, hs, he⟩ => ⟨s, List.mem_cons_of_mem _ hs, he⟩)
        fun ⟨s, hs, he⟩ => ⟨s, List.mem_cons_of_mem _ hs, he⟩

theorem canonical_iff {ts : List (Nat × Rat)} : Canonical ts ↔
    ts.Pairwise (fun s t => t.1 < s.1) ∧ (∀ t ∈ ts, t.2 ≠ 0) ∧ ∀ t ∈ ts, t.1 < wordSize :=
  ⟨fun h => ⟨h.1, h.2, h.3⟩, fun h => ⟨h.1, h.2.1, h.2.2⟩⟩

/-- Merging canonical lists gives a canonical list. -/
theorem Canonical.addTerms {ss ts : List (Nat × Rat)} (hs : Canonical ss) (ht : Canonical ts) :
    Canonical (addTerms ss ts) := by
  fun_induction Poly.addTerms ss ts with
  | case1 ts => exact ht
  | case2 ss => exact hs
  | case3 m a ss n b ts hlt ih | case4 m a ss n b ts _ hlt ih
  | case5 m a ss n b ts _ _ hz ih | case6 m a ss n b ts _ _ hz ih =>
    simp only [canonical_iff, List.pairwise_cons, List.mem_cons, forall_eq_or_imp] at *
    grind [exponent_of_mem_addTerms]

end Poly

/-- A polynomial in one variable with rational coefficients. -/
structure Poly where
  /-- The terms, each an exponent and a coefficient, highest exponent first. -/
  terms : List (Nat × Rat)
  /-- Exponents are words that decrease, and no coefficient is zero. -/
  canonical : Poly.Canonical terms
deriving DecidableEq

namespace Poly

@[ext] theorem ext {p q : Poly} (h : p.terms = q.terms) : p = q := by
  cases p; cases q; simp_all

/-! ## Constants and single terms -/

/-- The zero polynomial. -/
def zero : Poly := ⟨[], .nil, by simp, by simp⟩

/-- The polynomial with one term, which is zero when the coefficient is.  The exponent wraps around
to a word. -/
def monomial (n : Nat) (c : Rat) : Poly :=
  if h : c = 0 then zero
  else ⟨[(n % wordSize, c)], by simp, by simpa using h,
    by simpa using Nat.mod_lt n wordSize_pos⟩

/-- The constant polynomial. -/
def const (c : Rat) : Poly := monomial 0 c

/-- The constant `1`. -/
def one : Poly := const 1

/-- The variable as a polynomial. -/
def x : Poly := monomial 1 1

/-! ## Reading a polynomial -/

/-- Whether the polynomial is zero. -/
def isZero (p : Poly) : Bool := p.terms.isEmpty

/-- Whether the polynomial is the constant `1`. -/
def isOne (p : Poly) : Bool := p.terms == [(0, 1)]

/-- The degree; the zero polynomial has none. -/
def degree? (p : Poly) : Option Nat := p.terms.head?.map (·.1)

/-- One more than the degree, and zero for the zero polynomial. -/
def size (p : Poly) : Nat :=
  match p.terms with
  | [] => 0
  | t :: _ => t.1 + 1

/-- The leading coefficient, and zero for the zero polynomial. -/
def leading (p : Poly) : Rat :=
  match p.terms with
  | [] => 0
  | t :: _ => t.2

/-- The coefficient of a power. -/
def coeff (p : Poly) (n : Nat) : Rat := (p.terms.lookup n).getD 0

/-- The polynomial without its leading term. -/
def reductum (p : Poly) : Poly :=
  ⟨p.terms.tail, p.canonical.decreasing.tail,
    fun t h => p.canonical.nonzero t (List.mem_of_mem_tail h),
    fun t h => p.canonical.word t (List.mem_of_mem_tail h)⟩

/-- The value at a rational point. -/
def eval (p : Poly) (a : Rat) : Rat := p.terms.foldl (fun s t => s + t.2 * a ^ t.1) 0

/-- The size bounds the exponents. -/
theorem size_le_iff {p : Poly} {n : Nat} : p.size ≤ n ↔ ∀ t ∈ p.terms, t.1 < n := by
  obtain ⟨ts, hs, _, _⟩ := p
  cases ts with
  | nil => simp [size]
  | cons t ts =>
    simp only [List.pairwise_cons] at hs
    simp only [size, List.mem_cons, forall_eq_or_imp]
    exact ⟨fun h => ⟨h, fun s hm => Nat.lt_trans (hs.1 s hm) h⟩, fun h => h.1⟩

theorem size_eq_zero_iff {p : Poly} : p.size = 0 ↔ p.terms = [] := by
  unfold size
  split <;> simp_all

/-- The degree is a word. -/
theorem size_le_wordSize (p : Poly) : p.size ≤ wordSize := size_le_iff.2 p.canonical.word

theorem size_monomial_le (n : Nat) (c : Rat) : (monomial n c).size ≤ n + 1 := by
  unfold monomial
  split
  · exact Nat.zero_le _
  · exact Nat.succ_le_succ (Nat.mod_le n wordSize)

theorem size_reductum_lt {p : Poly} (h : p.size ≠ 0) : p.reductum.size < p.size := by
  obtain ⟨ts, hs, _, _⟩ := p
  cases ts with
  | nil => simp [size] at h
  | cons t ts =>
    refine Nat.lt_succ_of_le (size_le_iff.2 fun s hm => ?_)
    exact (List.pairwise_cons.1 hs).1 s hm

/-! ## Arithmetic -/

/-- The sum. -/
protected def add (p q : Poly) : Poly :=
  ⟨addTerms p.terms q.terms, p.canonical.addTerms q.canonical⟩

instance : Add Poly := ⟨Poly.add⟩

theorem size_add_le {p q : Poly} {n : Nat} (hp : p.size ≤ n) (hq : q.size ≤ n) :
    (p + q).size ≤ n := by
  rw [size_le_iff] at *
  intro t ht
  rcases exponent_of_mem_addTerms ht with ⟨s, hs, he⟩ | ⟨s, hs, he⟩
  · exact he ▸ hp s hs
  · exact he ▸ hq s hs

/-- The sum of single terms. -/
def ofTerms (ts : List (Nat × Rat)) : Poly := ts.foldr (fun t p => monomial t.1 t.2 + p) zero

theorem size_ofTerms_le {ts : List (Nat × Rat)} {n : Nat} (h : ∀ t ∈ ts, t.1 < n) :
    (ofTerms ts).size ≤ n := by
  induction ts with
  | nil => exact Nat.zero_le n
  | cons t ts ih =>
    refine size_add_le (Nat.le_trans (size_monomial_le _ _) (h t (by simp))) (ih ?_)
    exact fun s hs => h s (List.mem_cons_of_mem t hs)

/-- The product with the single term `c * x ^ n`.  Exponents wrap around. -/
def timesTerm (n : Nat) (c : Rat) (p : Poly) : Poly :=
  ofTerms (p.terms.map fun t => (t.1 + n, c * t.2))

theorem size_timesTerm_le (n : Nat) (c : Rat) (p : Poly) :
    (timesTerm n c p).size ≤ p.size + n := by
  refine size_ofTerms_le fun t ht => ?_
  obtain ⟨s, hs, rfl⟩ := List.mem_map.1 ht
  exact Nat.add_lt_add_right (size_le_iff.1 (Nat.le_refl p.size) s hs) n

/-- The product with a rational. -/
def scale (c : Rat) (p : Poly) : Poly := timesTerm 0 c p

/-- The negation. -/
protected def neg (p : Poly) : Poly := scale (-1) p

instance : Neg Poly := ⟨Poly.neg⟩

theorem size_neg_le (p : Poly) : (-p).size ≤ p.size := size_timesTerm_le 0 (-1) p

/-- The difference. -/
protected def sub (p q : Poly) : Poly := p + -q

instance : Sub Poly := ⟨Poly.sub⟩

theorem size_sub_le {p q : Poly} {n : Nat} (hp : p.size ≤ n) (hq : q.size ≤ n) :
    (p - q).size ≤ n :=
  size_add_le hp (Nat.le_trans (size_neg_le q) hq)

/-- The product.  Exponents wrap around. -/
protected def mul (p q : Poly) : Poly :=
  p.terms.foldr (fun t r => timesTerm t.1 t.2 q + r) zero

instance : Mul Poly := ⟨Poly.mul⟩

/-- The product of a polynomial with the power of another one, by repeated squaring.  The last turn
squares once more than needed. -/
def timesPower (p base : Poly) (n : Nat) : Poly :=
  if n = 0 then p
  else timesPower (if n % 2 = 1 then p * base else p) (base * base) (n / 2)
termination_by n
decreasing_by omega

/-- The power. -/
protected def pow (p : Poly) (n : Nat) : Poly := timesPower one p n

/-- The polynomial with leading coefficient `1` that has the same roots. -/
def monic (p : Poly) : Poly :=
  if p.leading = 0 then p else scale (1 / p.leading) p

/-! ## Calculus -/

/-- The derivative. -/
def derivative (p : Poly) : Poly := ofTerms (p.terms.map fun t => (t.1 - 1, t.2 * t.1))

/-- The exponent after another one, which wraps around to zero. -/
def nextExponent (n : Nat) : Nat := (n + 1) % wordSize

/-- The antiderivative without a constant term.  A term with the largest exponent has none, since it
would be divided by zero. -/
def integral (p : Poly) : Poly :=
  ofTerms (p.terms.map fun t => (nextExponent t.1, t.2 / (nextExponent t.1 : Nat)))

/-- Whether every term has an antiderivative. -/
def isIntegrable (p : Poly) : Bool := p.size < wordSize

end Poly

end MarketAlgebra
