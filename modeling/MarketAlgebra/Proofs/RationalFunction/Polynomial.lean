import MarketAlgebra.Proofs.Derivative
import MarketAlgebra.Proofs.Poly.NestedPower

/-!
# Polynomials among the rational functions

There are two readers of expressions.  One expands everything to a polynomial and divides by
constants only; the other keeps quotients and reduces them at every node.  On an expression that the
first one reads, the second one finds the same polynomial over the denominator one, whatever
quotients, signs and powers the expression is made of.  While the degrees are words, the exact value
of the expression at a rational is the value of that polynomial (`polynomial_readers_agree`).

The exact value is stated twice: as the result of exact arithmetic on the expression at a constant
(`Denotes.rational?_substitute`), and as its value over the reals.
-/

namespace MarketAlgebra

open MarketAlgebra.Expr Polynomial

variable {x : String} {e : Expr} {p : Poly}

/-- An expression that denotes a polynomial is at a constant an expression of constants, and its
value is that of the polynomial. -/
theorem Poly.Denotes.rational?_substitute {F : ℚ[X]} (h : Poly.Denotes x e F) (v : Rat) :
    (e.substitute x (.const v)).rational? = some (F.eval v) := by
  induction h with
  | var => rw [substitute, if_pos rfl, rational?, eval_X]
  | const c => rw [substitute, rational?, eval_C]
  | add _ _ iha ihb | sub _ _ iha ihb | mul _ _ iha ihb =>
    rw [substitute, rational?, iha, ihb]
    simp
  | @div a b F c _ _ hc iha ihb =>
    rw [substitute, rational?, iha, ihb]
    simp [hc, div_eq_inv_mul]
  | neg _ ih =>
    rw [substitute, rational?, ih]
    simp
  | @pow a b F n _ hn iha =>
    obtain ⟨hexponent, hlimit⟩ := integerExponent?_of_naturalExponent? hn
    have hrational := rational?_of_integerExponent? hexponent
    have hlt : n < 2 ^ 32 := hlimit.trans_lt (by decide)
    rw [substitute, rational?, iha,
      substitute_of_not_mentions (mentions_of_rational? hrational x), hrational]
    simp [rationalPower?_natCast _ hlt]

/-- A polynomial expression at a constant is an expression of constants. -/
theorem rational?_substitute_of_ofExpr? (h : Poly.ofExpr? x e = some p)
    (hlt : e.degreeBound < Poly.wordSize) (v : Rat) :
    (e.substitute x (.const v)).rational? = some (p.eval v) := by
  rw [Poly.eval_eq]
  exact (Poly.denotes_of_ofExpr? h hlt).rational?_substitute v

/-- An expression that is read as a polynomial is read as the rational function with this numerator
over one.  While the degrees are words, it has at every rational an exact value, the value of the
polynomial. -/
theorem polynomial_readers_agree (h : Poly.ofExpr? x e = some p) :
    RationalFunction.ofExpr? x e = some ⟨p, .one⟩ ∧
      (e.degreeBound < Poly.wordSize → ∀ v : Rat,
        (e.substitute x (.const v)).rational? = some (p.eval v) ∧
        ∀ s : String → ℝ, e.HasValue (Function.update s x v) (p.eval v : Rat)) := by
  refine ⟨RationalFunction.ofExpr?_eq_ofPoly h, fun hlt v => ⟨?_, fun s => ?_⟩⟩
  · exact rational?_substitute_of_ofExpr? h hlt v
  · have hvalue := Poly.hasValue_update_of_ofExpr? h hlt s v
    rwa [Poly.eval_real_ratCast] at hvalue

/-- The quotient `(Q ^ 0 + (-Q) ^ -(-2)) / (2 + Q - Q)`. -/
def constantBelowBar : Expr :=
  .div (.add (.pow (.var "Q") (.const 0)) (.pow (.neg (.var "Q")) (.neg (.const (-2)))))
    (.sub (.add (.const 2) (.var "Q")) (.var "Q"))

/-- It is the polynomial `1/2 * Q ^ 2 + 1/2`, which is `1/2` at zero. -/
theorem polynomial_readers_agree_constantBelowBar :
    let p : Poly := .scale (1 / 2) (.x * .x + .one)
    Poly.ofExpr? "Q" constantBelowBar = some p ∧
      constantBelowBar.degreeBound < Poly.wordSize ∧
      RationalFunction.ofExpr? "Q" constantBelowBar = some ⟨p, .one⟩ ∧
      (constantBelowBar.substitute "Q" (.const 0)).rational? = some (1 / 2) ∧
      ∀ s : String → ℝ, constantBelowBar.HasValue (Function.update s "Q" 0) (1 / 2) := by
  intro p
  have h : Poly.ofExpr? "Q" constantBelowBar = some p := by with_unfolding_all rfl
  have hzero : p.eval 0 = 1 / 2 := by with_unfolding_all rfl
  obtain ⟨hfunction, hvalue⟩ := polynomial_readers_agree h
  have hlt : constantBelowBar.degreeBound < Poly.wordSize := by decide
  obtain ⟨hrational, hreal⟩ := hvalue hlt 0
  rw [hzero] at hrational hreal
  refine ⟨h, hlt, hfunction, hrational, fun s => ?_⟩
  have hs := hreal s
  push_cast at hs
  exact hs

/-- The power whose exponent is the number of words is zero at zero.  But it is read as the constant
one, by both readers. -/
theorem wrapped_power_is_not_zero :
    Poly.ofExpr? "Q" Poly.wordPower = some .one ∧
      RationalFunction.ofExpr? "Q" Poly.wordPower = some ⟨.one, .one⟩ ∧
      (Poly.wordPower.substitute "Q" (.const 0)).rational? = some 0 ∧ Poly.one.eval 0 = 1 := by
  have h := Poly.ofExpr?_eq_some_iff.2 Poly.expands_wordPower
  refine ⟨h, RationalFunction.ofExpr?_eq_ofPoly h, ?_, by with_unfolding_all rfl⟩
  rw [Poly.denotes_wordPower.rational?_substitute, eval_pow, eval_X, zero_pow Poly.wordSize_pos.ne']

end MarketAlgebra
