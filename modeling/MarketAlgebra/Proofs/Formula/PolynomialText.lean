import MarketAlgebra.Formula.Reading
import MarketAlgebra.Proofs.Formula.Printing
import MarketAlgebra.Proofs.Poly.Expression
import MarketAlgebra.Proofs.Poly.Representation

/-!
# Polynomials as text

A polynomial that is printed and read again is the same polynomial, though the expression that is
read is another one.  A coefficient that is not an integer becomes a quotient below the product, the
sign of a coefficient is read as the negation of a whole term, and a negative constant term is
subtracted.

The text of each term is read as an expression that expands to this term (`readable_termExpr`).  One
more term makes one more step of the sum (`readable_add_termExpr`), and by induction on the list of
terms the text of a sum expands to the sum (`readable_foldl_termExpr`).
-/

namespace MarketAlgebra.Formula

open MarketAlgebra.Poly (Expands monomial powerExpr termExpr addTerm toPolynomial_injective)

/-- An expression that writes a rational out expands to a constant. -/
theorem Literal.expands {e : Expr} {c : Rat} (h : Literal e c) (x : String) :
    Expands x e (.const c) := by
  induction h with
  | number n => exact .const n
  | @negative e q _ ih =>
    have hneg : -Poly.const q = .const (-q) := toPolynomial_injective (by simp)
    exact hneg ▸ ih.neg
  | @quotient a b q r _ _ hr iha ihb =>
    have hscale : Poly.scale (1 / r) (.const q) = .const (q / r) := by
      refine toPolynomial_injective ?_
      rw [Poly.toPolynomial_scale, Poly.toPolynomial_const, Poly.toPolynomial_const,
        ← Polynomial.C_mul, one_div_mul_eq_div]
    exact hscale ▸ .div iha ihb hr

section

variable {x : String} {n place : ℕ}

/-! ## Terms -/

theorem textIn_natCast (place n : ℕ) : (Expr.const (n : Rat)).textIn place = toString n := by
  rw [Expr.textIn, Expr.constText, Rat.den_natCast, if_pos rfl, if_pos (Nat.cast_nonneg _), ratText,
    Rat.den_natCast, if_pos rfl]
  rfl

theorem x_pow_eq_monomial (n : ℕ) : Poly.x.pow n = monomial n 1 := by
  rw [Poly.x, Poly.monomial_pow, one_mul]

/-- An exponent within the limit is a word. -/
theorem toPolynomial_monomial_of_le (hn : n ≤ expansionLimit) (c : Rat) :
    (monomial n c).toPolynomial = Polynomial.monomial n c :=
  Poly.toPolynomial_monomial_of_lt (hn.trans_lt (by decide)) c

/-- A power of the variable is read as one factor. -/
theorem readable_powerExpr (hx : IsName x) (hn : n ≤ expansionLimit) (hplace : place ≤ 3) :
    Readable .signed ((powerExpr x n).textIn place) (Expands x · (monomial n 1)) := by
  have hvar : Readable .primary x (Expands x · .x) := ⟨_, _, hx.spells, .name x, .var⟩
  rw [powerExpr]
  split
  next h =>
    rw [Expr.textIn, h]
    exact hvar.power.signed
  next =>
    have hhalf : Expr.const (n : Rat) ≠ .const (1 / 2) := fun h => by
      have hden := congrArg Rat.den (Expr.const.inj h)
      rw [Rat.den_natCast] at hden
      exact absurd hden (by norm_num)
    rw [Expr.int, Int.cast_natCast, Expr.textIn, if_neg hhalf, bracket_of_le hplace,
      textIn_natCast, Expr.textIn, ← x_pow_eq_monomial]
    refine (hvar.raise (readable_nat n).power.signed fun ha hb => ?_).signed
    exact ha.pow (hb ▸ Expr.naturalExponent?_natCast hn)

theorem readable_const (x : String) (c : Rat) (hplace : place ≤ 2) :
    Readable .product ((Expr.const c).textIn place) (Expands x · (.const c)) := by
  have htext : (Expr.const c).textIn place = ratText c := by
    simp only [Expr.textIn, Expr.constText, bracket_of_le hplace,
      bracket_of_le (Nat.le_succ_of_le hplace), ite_self]
  rw [htext]
  exact (readable_ratText c).mono (·.expands x)

theorem unsigned_const (c : Rat) : (Expr.const c).unsigned = .const |c| := by
  rw [Expr.unsigned]
  split
  next h => rw [abs_of_neg h]
  next h => rw [abs_of_nonneg (not_lt.1 h)]

theorem powerExpr_not_signed (x : String) (n : ℕ) : (powerExpr x n).signed = false := by
  rw [powerExpr]
  split <;> rfl

theorem reciprocal?_powerExpr (x : String) (n : ℕ) : (powerExpr x n).reciprocal? = none := by
  rw [powerExpr]
  split <;> rfl

/-- The sign of a coefficient stands in front of the product. -/
theorem readable_mul_powerExpr (hx : IsName x) (hn : n ≤ expansionLimit) (c : Rat)
    (hplace : place ≤ 2) :
    Readable .product ((Expr.mul (.const c) (powerExpr x n)).textIn place)
      (Expands x · (monomial n c)) := by
  have habs : Readable .product
      ((Expr.const |c|).textIn 2 ++ "*" ++ (powerExpr x n).textIn 2)
      (Expands x · (monomial n |c|)) := by
    refine (readable_const x |c| le_rfl).times (readable_powerExpr hx hn (by decide)) ?_
    intro a b ha hb
    have hmul : Poly.const |c| * monomial n 1 = monomial n |c| := by
      apply toPolynomial_injective
      rw [Poly.toPolynomial_const_mul, toPolynomial_monomial_of_le hn,
        toPolynomial_monomial_of_le hn, Polynomial.C_mul_monomial, mul_one]
    exact hmul ▸ ha.mul hb
  have hunsigned := Expr.unsigned_eq_self (powerExpr_not_signed x n)
  rw [Expr.textIn, bracket_of_le hplace, powerExpr_not_signed, Bool.bne_false, Expr.signed,
    unsigned_const]
  refine Readable.signedProduct (P := (Expands x · (monomial n |c|))) ?_ (fun hc => ?_) fun hc => ?_
  · split
    next d hd =>
      rw [hunsigned, reciprocal?_powerExpr] at hd
      cases hd
    next => rwa [hunsigned]
  · rw [abs_of_nonneg (not_lt.1 (of_decide_eq_false hc))]
    exact id
  · have hneg : -monomial n |c| = monomial n c := by
      apply toPolynomial_injective
      rw [Poly.toPolynomial_neg, toPolynomial_monomial_of_le hn, toPolynomial_monomial_of_le hn,
        abs_of_neg (of_decide_eq_true hc), map_neg, neg_neg]
    exact fun {_} ha => hneg ▸ ha.neg

/-- The text of a term. -/
theorem readable_termExpr (hx : IsName x) (hn : n ≤ expansionLimit) (c : Rat) (hplace : place ≤ 2) :
    Readable .product ((termExpr x n c).textIn place) (Expands x · (monomial n c)) := by
  by_cases hzero : n = 0
  · subst hzero
    exact readable_const x c hplace
  · rw [Poly.termExpr_of_ne_zero hzero]
    split
    next hc =>
      rw [hc]
      exact (readable_powerExpr hx hn (Nat.le_succ_of_le hplace)).product
    next => exact readable_mul_powerExpr hx hn c hplace

/-- Of the terms of a polynomial only a negative constant shows its sign. -/
theorem termExpr_of_signed {c : Rat} (h : (termExpr x n c).signed = true) : n = 0 ∧ c < 0 := by
  by_cases hzero : n = 0
  · subst hzero
    exact ⟨rfl, by simpa [termExpr, Expr.signed] using h⟩
  · rw [Poly.termExpr_of_ne_zero hzero] at h
    split at h
    next => rw [powerExpr_not_signed] at h; cases h
    next => cases h

/-! ## Sums of terms -/

variable {e : Expr} {p : Poly}

/-- One more term.  The sum so far stands alone in place `0`, or in place `1` in front of a further
term. -/
theorem readable_add_termExpr (hx : IsName x) (hn : n ≤ expansionLimit) (c : Rat)
    (he : ∀ place ≤ 1, Readable .sum (e.textIn place) (Expands x · p)) :
    ∀ place ≤ 1, Readable .sum ((Expr.add e (termExpr x n c)).textIn place)
      (Expands x · (addTerm p (n, c))) := by
  intro place hplace
  rw [Expr.textIn, bracket_of_le hplace]
  cases hs : (termExpr x n c).signed with
  | false =>
    rw [Expr.unsigned_eq_self hs, if_neg Bool.false_ne_true]
    exact (he 1 le_rfl).plus (readable_termExpr hx hn c le_rfl) .add
  | true =>
    obtain ⟨rfl, hc⟩ := termExpr_of_signed hs
    have hsub : p - .const |c| = addTerm p (0, c) := by
      apply toPolynomial_injective
      show _ = (p + .const c).toPolynomial
      simp [abs_of_neg hc]
    rw [if_pos rfl, termExpr, unsigned_const]
    refine (he 1 le_rfl).minus (readable_const x |c| le_rfl) fun ha hb => ?_
    exact hsub ▸ ha.sub hb

/-- All further terms, by induction on their list. -/
theorem readable_foldl_termExpr (hx : IsName x) {ts : List (ℕ × Rat)}
    (hts : ∀ t ∈ ts, t.1 ≤ expansionLimit)
    (he : ∀ place ≤ 1, Readable .sum (e.textIn place) (Expands x · p)) :
    ∀ place ≤ 1, Readable .sum
      (((ts.map fun t => termExpr x t.1 t.2).foldl .add e).textIn place)
      (Expands x · (ts.foldl addTerm p)) := by
  induction ts generalizing e p with
  | nil => exact he
  | cons t ts ih =>
    obtain ⟨ht, hts⟩ := List.forall_mem_cons.1 hts
    exact ih hts (readable_add_termExpr hx ht t.2 he)

/-- The text of a polynomial. -/
theorem readable_toExpr (hx : IsName x) (hp : ∀ t ∈ p.terms, t.1 ≤ expansionLimit) :
    Readable .sum (p.toExpr x).text (Expands x · p) := by
  rw [Poly.toExpr_eq_sum]
  cases hts : p.terms with
  | nil =>
    have hzero : Poly.const 0 = p :=
      toPolynomial_injective (by rw [Poly.toPolynomial_eq_zero_iff.2 hts]; simp)
    rw [← hzero]
    exact (readable_const x 0 (Nat.zero_le 2)).sum
  | cons t ts =>
    rw [hts] at hp
    obtain ⟨ht, hrest⟩ := List.forall_mem_cons.1 hp
    have hfirst : ∀ place ≤ 1, Readable .sum ((termExpr x t.1 t.2).textIn place)
        (Expands x · (monomial t.1 t.2)) := fun place hplace =>
      (readable_termExpr hx ht t.2 (Nat.le_succ_of_le hplace)).sum
    have hsum : ts.foldl addTerm (monomial t.1 t.2) = p := by
      refine toPolynomial_injective ?_
      rw [Poly.toPolynomial_foldl_addTerm, Poly.toPolynomial_monomial, ← Poly.wrap_add,
        ← Poly.sumTerms_cons, ← hts]
      exact Poly.wrap_toPolynomial p
    rw [← hsum]
    exact readable_foldl_termExpr hx hrest hfirst 0 (Nat.zero_le 1)

/-- A polynomial within the limit for powers is printed as a text that is read as an expression of
this same polynomial, whatever its coefficients and its variable. -/
theorem polynomial_text_is_read (hx : IsName x)
    (hp : p.toPolynomial.natDegree ≤ expansionLimit) :
    ∃ e, read (p.toExpr x).text = .ok e ∧ Poly.ofExpr? x e = some p := by
  have hterms : ∀ t ∈ p.terms, t.1 ≤ expansionLimit := fun t ht => by
    obtain ⟨hne, hcoeff⟩ := (Poly.mem_terms_iff p).1 ht
    exact (Polynomial.le_natDegree_of_ne_zero (hcoeff ▸ hne)).trans hp
  obtain ⟨e, he, hexpands⟩ := (readable_toExpr hx hterms).parse?
  exact ⟨e, by rw [read, he], Poly.ofExpr?_eq_some_iff.2 hexpands⟩

end

/-- A polynomial in `q1` with negative, fractional and unit coefficients and without a quadratic
term. -/
theorem polynomial_text_is_read_of_quartic :
    let p : Poly := .scale (-3 / 2) (Poly.x.pow 4) + Poly.x.pow 3 - .x - .const (1 / 4)
    (p.toExpr "q1").text = "-(3/2*q1^4)+q1^3+-(1*q1)-1/4" ∧
      IsName "q1" ∧ p.toPolynomial.natDegree ≤ expansionLimit ∧
      ∃ e, read (p.toExpr "q1").text = .ok e ∧ Poly.ofExpr? "q1" e = some p := by
  intro p
  have hname : IsName "q1" := ⟨'q', ['1'], rfl, rfl, rfl⟩
  have hdegree : p.toPolynomial.natDegree ≤ expansionLimit := by
    have hsize : p.size ≤ expansionLimit + 1 := by decide +kernel
    exact Poly.natDegree_le_iff_size_le.2 hsize
  exact ⟨by cbv, hname, hdegree, polynomial_text_is_read hname hdegree⟩

end MarketAlgebra.Formula
