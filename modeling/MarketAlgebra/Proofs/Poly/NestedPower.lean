import MarketAlgebra.Proofs.Poly.Expression

/-!
# Powers of powers

A power within the expansion limit may be the base of another one, and the exponents multiply.
Simplification merges such exponents, unless there is a sign between them.  Over even exponents the
signs make no difference.  What such an expression denotes is a power of the variable
(`denotes_nestedPower`), and what is read from it is that power with its exponent wrapped around to
a word (`expands_nestedPower`).  Eight exponents are enough to make up all words, and then the
constant one is read (`expands_wordPower`).
-/

namespace MarketAlgebra.Poly

open Polynomial

/-- Powers with the given exponents over one another, each of the negation of the one below. -/
def nestedPower (x : String) (ns : List ℕ) : Expr :=
  ns.foldl (fun e n => .pow (.neg e) (.const n)) (.var x)

/-- The exponents are even and within the expansion limit. -/
def EvenExponents (ns : List ℕ) : Prop := ∀ n ∈ ns, Even n ∧ n ≤ expansionLimit

instance (ns : List ℕ) : Decidable (EvenExponents ns) :=
  inferInstanceAs (Decidable (∀ n ∈ ns, Even n ∧ n ≤ expansionLimit))

/-- An even power of a negated power of the variable. -/
theorem neg_monomial_pow {n : ℕ} (hn : Even n) (m : ℕ) :
    (-monomial m 1).pow n = monomial (m * n) 1 := by
  rw [← monomial_pow]
  apply toPolynomial_injective
  rw [toPolynomial_pow, toPolynomial_neg, hn.neg_pow, toPolynomial_pow]

section

variable {x : String} {ns : List ℕ}

/-- What holds of the variable, and of an even power of the negation of what it holds of, holds of
nested powers. -/
theorem nestedPower_induction {R : Expr → ℕ → Prop} (hvar : R (.var x) 1)
    (hpow : ∀ e m n, Even n → n ≤ expansionLimit → R e m → R (.pow (.neg e) (.const n)) (m * n))
    (h : EvenExponents ns) : R (nestedPower x ns) ns.prod := by
  have hfold : ∀ (ns : List ℕ) (m : ℕ) (e : Expr), EvenExponents ns → R e m →
      R (ns.foldl (fun e n => .pow (.neg e) (.const n)) e) (m * ns.prod) := by
    intro ns
    induction ns with
    | nil => exact fun m e _ he => by rwa [List.prod_nil, mul_one]
    | cons n ns ih =>
      intro m e hns he
      obtain ⟨⟨heven, hlimit⟩, hns⟩ := List.forall_mem_cons.1 hns
      rw [List.prod_cons, ← mul_assoc]
      exact ih (m * n) _ hns (hpow e m n heven hlimit he)
  rw [← one_mul ns.prod]
  exact hfold ns 1 (.var x) h hvar

/-- The exponents of nested powers are multiplied. -/
theorem denotes_nestedPower (h : EvenExponents ns) :
    Denotes x (nestedPower x ns) (X ^ ns.prod) := by
  refine nestedPower_induction (R := fun e m => Denotes x e (X ^ m)) ?_
    (fun e m n heven hlimit he => ?_) h
  · rw [pow_one]
    exact .var
  · rw [pow_mul, ← heven.neg_pow]
    exact .pow (.neg he) (Expr.naturalExponent?_natCast hlimit)

/-- The power that is read has the product of the exponents, wrapped around. -/
theorem expands_nestedPower (h : EvenExponents ns) :
    Expands x (nestedPower x ns) (monomial ns.prod 1) := by
  refine nestedPower_induction (R := fun e m => Expands x e (monomial m 1)) .var
    (fun e m n heven hlimit he => ?_) h
  rw [← neg_monomial_pow heven]
  exact .pow (.neg he) (Expr.naturalExponent?_natCast hlimit)

end

/-! ## All words -/

/-- The exponents of a power whose degree is `n` times `2 ^ 55`. -/
def hugeExponents (n : ℕ) : List ℕ := List.replicate 6 512 ++ [2, n]

variable {n : ℕ}

theorem prod_hugeExponents (n : ℕ) : (hugeExponents n).prod = 2 ^ 55 * n := by
  rw [hugeExponents, List.prod_append, List.prod_replicate, List.prod_cons, List.prod_singleton,
    ← mul_assoc]
  rfl

theorem evenExponents_hugeExponents (heven : Even n) (hlimit : n ≤ expansionLimit) :
    EvenExponents (hugeExponents n) := by
  intro m hm
  rcases List.mem_append.1 hm with hm | hm
  · rw [List.eq_of_mem_replicate hm]
    decide
  · rcases List.mem_cons.1 hm with rfl | hm
    · decide
    · rw [List.mem_singleton.1 hm]
      exact ⟨heven, hlimit⟩

/-- The power of the variable with an exponent of `n` times `2 ^ 55`. -/
def hugePower (n : ℕ) : Expr := nestedPower "Q" (hugeExponents n)

theorem expands_hugePower (heven : Even n) (hlimit : n ≤ expansionLimit) :
    Expands "Q" (hugePower n) (monomial (2 ^ 55 * n) 1) := by
  rw [← prod_hugeExponents]
  exact expands_nestedPower (evenExponents_hugeExponents heven hlimit)

theorem denotes_hugePower (heven : Even n) (hlimit : n ≤ expansionLimit) :
    Denotes "Q" (hugePower n) (X ^ (2 ^ 55 * n)) := by
  rw [← prod_hugeExponents]
  exact denotes_nestedPower (evenExponents_hugeExponents heven hlimit)

/-- The power of the variable whose exponent is the number of words. -/
def wordPower : Expr := hugePower 512

/-- It is read as the constant one. -/
theorem expands_wordPower : Expands "Q" wordPower one := by
  have hexponent : 2 ^ 55 * 512 = wordSize := rfl
  have h := expands_hugePower (n := 512) (by decide) (by decide)
  rwa [hexponent, monomial_wordSize] at h

theorem denotes_wordPower : Denotes "Q" wordPower (X ^ wordSize) := by
  have hexponent : 2 ^ 55 * 512 = wordSize := rfl
  rw [← hexponent]
  exact denotes_hugePower (by decide) (by decide)

end MarketAlgebra.Poly
