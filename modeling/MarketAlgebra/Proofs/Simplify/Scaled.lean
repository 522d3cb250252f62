import Mathlib.Algebra.Order.Ring.Rat
import MarketAlgebra.Simplify.Operation

/-!
# Multiples of an expression

A `Base` is an expression without a coefficient of its own that is a single term.  Its multiples are
written in three ways, as the expression itself, as its negation and as a product with a constant
(`Base.scaled_cases`).  In each of them the coefficient and the base are found again
(`Base.split_scaled`), also when the multiple stands below a negation (`Base.terms_neg_scaled`).
-/

namespace MarketAlgebra.Simplify

open MarketAlgebra.Expr

/-- An expression that is a single term and has no coefficient of its own. -/
structure Base (u : Expr) : Prop where
  constant : u.constant? = none
  isSum : isSum u = false
  termCount : termCount u = 1
  terms : terms u = [u]
  neg : neg u = .neg u
  split : split u = (1, u)
  product_factors : product (factors u) = u

variable {u t : Expr} {m : Rat}

/-- A term keeps its base below a negation. -/
theorem split_neg (h : split t = (m, u)) : split (neg t) = (-m, u) := by
  cases t with
  | const c =>
    obtain ⟨rfl, rfl⟩ := Prod.mk.inj h
    rfl
  | neg a =>
    obtain ⟨rfl, rfl⟩ := Prod.mk.inj h
    rw [neg, neg_neg]
  | _ => exact Prod.ext (congrArg (- ·.1) h) (congrArg (·.2) h)

namespace Base

theorem isOne (h : Base u) : u.isOne = false := by
  rw [Expr.isOne, h.constant]
  rfl

/-- The multiples of an expression. -/
theorem scaled_cases (h : Base u) (hm : m ≠ 0) :
    m = 1 ∧ scaled m u = u ∨ m = -1 ∧ scaled m u = .neg u ∨
      m ≠ 1 ∧ m ≠ -1 ∧ scaled m u = .mul (.const m) u := by
  rw [scaled, if_neg hm, if_neg (by rw [h.isOne]; exact Bool.false_ne_true)]
  by_cases h1 : m = 1
  · exact .inl ⟨h1, if_pos h1⟩
  · rw [if_neg h1]
    by_cases h2 : m = -1
    · exact .inr (.inl ⟨h2, by rw [if_pos h2, h.neg]⟩)
    · exact .inr (.inr ⟨h1, h2, if_neg h2⟩)

theorem split_scaled (h : Base u) (hm : m ≠ 0) : Simplify.split (scaled m u) = (m, u) := by
  rcases h.scaled_cases hm with ⟨rfl, hs⟩ | ⟨rfl, hs⟩ | ⟨-, -, hs⟩ <;> rw [hs]
  · exact h.split
  · simp [Simplify.split, h.split]
  · simp [Simplify.split, h.split, factors, h.product_factors, Expr.one, Expr.isOne, constant?]

theorem terms_scaled (h : Base u) (hm : m ≠ 0) :
    ∃ t, Simplify.terms (scaled m u) = [t] ∧ Simplify.split t = (m, u) := by
  have hsplit := h.split_scaled hm
  rcases h.scaled_cases hm with ⟨-, hs⟩ | ⟨-, hs⟩ | ⟨-, -, hs⟩ <;> rw [hs] at hsplit ⊢
  · exact ⟨u, h.terms, hsplit⟩
  · exact ⟨.neg u, by rw [Simplify.terms, h.terms, List.map_singleton, h.neg], hsplit⟩
  · exact ⟨_, rfl, hsplit⟩

/-- The term of a negated multiple. -/
theorem terms_neg_scaled (h : Base u) (hm : m ≠ 0) :
    ∃ t, Simplify.terms (Simplify.neg (scaled m u)) = [t] ∧ Simplify.split t = (-m, u) := by
  have hsplit := split_neg (h.split_scaled hm)
  rcases h.scaled_cases hm with ⟨-, hs⟩ | ⟨-, hs⟩ | ⟨-, -, hs⟩ <;> rw [hs] at hsplit ⊢
  · refine ⟨Simplify.neg u, ?_, hsplit⟩
    rw [h.neg, Simplify.terms, h.terms, List.map_singleton, h.neg]
  · exact ⟨u, h.terms, hsplit⟩
  · exact ⟨_, rfl, hsplit⟩

/-- What a product asks about a multiple. -/
theorem constant?_scaled (h : Base u) (hm : m ≠ 0) :
    (scaled m u).constant? = none ∧ Simplify.isSum (scaled m u) = false ∧
      Simplify.termCount (scaled m u) = 1 := by
  rcases h.scaled_cases hm with ⟨-, hs⟩ | ⟨-, hs⟩ | ⟨-, -, hs⟩ <;> rw [hs]
  · exact ⟨h.constant, h.isSum, h.termCount⟩
  · exact ⟨rfl, rfl, h.termCount⟩
  · exact ⟨rfl, rfl, rfl⟩

end Base

end MarketAlgebra.Simplify
