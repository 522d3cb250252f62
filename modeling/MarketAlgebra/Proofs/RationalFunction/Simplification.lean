import Mathlib
import MarketAlgebra.Proofs.Poly.NestedPower
import MarketAlgebra.Proofs.RationalFunction.Recognition

/-!
# Simplified rational functions

An equation is solved by way of the rational function of a simplified expression.  Simplification
moves factors across the bar, merges powers and multiplies out, but while the degrees are words, it
leads to an expression of the same function, part by part (`ofExpr?_simplify_eq_some_iff`).  What it
may lose is the limit on exponents: it turns `(Q ^ 500) ^ 500` into a power that is not expanded.

Exponents that wrap around do so in one of the two expressions only, where powers cancel in the
other one (`cancelled_power_wraps_around`).

Values alone do not show this.  That the simplified expression is recognized at all is due to its
form, and that it is recognized as the same function is due to its values at almost all points.
-/

namespace MarketAlgebra

open Filter MarketAlgebra.Expr

namespace Expr

variable {b : Expr} {k : ℤ} {n : Nat}

/-- An integer exponent has no power in it, only signs. -/
theorem exponentsWithin_of_integerExponent? (h : b.integerExponent? = some k) :
    b.ExponentsWithin n := by
  induction b generalizing k with
  | const c => trivial
  | neg a ih =>
    obtain ⟨m, hm, -⟩ := Option.map_eq_some_iff.1 h
    exact ih hm
  | var _ | add _ _ _ _ | sub _ _ _ _ | mul _ _ _ _ | div _ _ _ _ | pow _ _ _ _ | call _ _ _ =>
    cases h

theorem exponentsWithin_pow {a : Expr} (ha : a.ExponentsWithin n)
    (hb : b.integerExponent? = some k) (hk : k.natAbs ≤ n) : (Expr.pow a b).ExponentsWithin n := by
  cases b with
  | const c =>
    simp only [integerExponent?, Option.ite_none_right_eq_some, Option.some.injEq] at hb
    obtain ⟨⟨hden, -⟩, rfl⟩ := hb
    refine ⟨ha, ?_⟩
    rw [← Rat.coe_int_num_of_den_eq_one hden, ← Int.cast_abs, Int.abs_eq_natAbs]
    exact_mod_cast hk
  | neg c => exact ⟨ha, exponentsWithin_of_integerExponent? hb⟩
  | var _ | add _ _ | sub _ _ | mul _ _ | div _ _ | pow _ _ | call _ _ => cases hb

end Expr

namespace RationalFunction

variable {x : String} {e : Expr} {f : RationalFunction}

/-- Only exponents within the limit are expanded. -/
theorem Expands.exponentsWithin (h : Expands x e f) : e.ExponentsWithin expansionLimit := by
  induction h with
  | var | const c => trivial
  | add _ _ _ iha ihb | sub _ _ _ iha ihb | mul _ _ _ iha ihb | div _ _ _ _ iha ihb =>
    exact ⟨iha, ihb⟩
  | neg _ ih => exact ih
  | pow _ hk hlimit _ _ ih => exact exponentsWithin_pow ih hk hlimit

/-- The simplified expression has the values of the function, almost everywhere. -/
theorem Expands.eventually_hasValue_simplify (h : Expands x e f)
    (hlt : e.degreeBound < Poly.wordSize) (s : String → ℝ) :
    ∀ᶠ t in cofinite, (simplify e).HasValue (Function.update s x t) (f.value t) :=
  (h.eventually_hasValue hlt s).mono fun _ ht => (keeps_simplify _ e).hasValue ht

/-- Functions in lowest terms with the same values are equal. -/
theorem Lowest.eq_of_value_eq {g : RationalFunction} (hf : f.Lowest) (hg : g.Lowest)
    (h : ∀ᶠ t in cofinite, f.value t = g.value t) : f = g :=
  (hf.eq_reduce_of_value_eq hg.denom_ne_zero h).trans (hg.eq_reduce hg.denom_ne_zero rfl).symm

/-- While the degrees are words, the simplified expression is read as the same function exactly when
its exponents are still within the limit. -/
theorem ofExpr?_simplify_eq_some_iff (h : ofExpr? x e = some f)
    (hlt : e.degreeBound < Poly.wordSize) (hlt' : (simplify e).degreeBound < Poly.wordSize) :
    ofExpr? x (simplify e) = some f ↔ (simplify e).ExponentsWithin expansionLimit := by
  have hexpands := ofExpr?_eq_some_iff.1 h
  constructor
  case mp =>
    intro hf
    exact (ofExpr?_eq_some_iff.1 hf).exponentsWithin
  case mpr =>
    intro hlimit
    have hvalue := hexpands.eventually_hasValue_simplify hlt fun _ => 0
    have hpowers := integerPowers_simplify_of_computed hexpands.computedPowers
    obtain ⟨g, hg⟩ := exists_expands hpowers hlimit hlt' (hvalue.mono fun t ht => ht.1)
    have hsame : ∀ᶠ t in cofinite, g.value t = f.value t := by
      filter_upwards [hg.eventually_hasValue hlt' fun _ => 0, hvalue] with t hgt hft
      exact hgt.unique hft
    obtain rfl := hg.lowest.eq_of_value_eq hexpands.lowest hsame
    exact ofExpr?_eq_some_iff.2 hg

/-! ## A power of a quotient -/

/-- The product `(Q / (Q - 1)) ^ -(2) * Q ^ 3`. -/
def inverseSquare : Expr :=
  .mul (.pow (.div (.var "Q") (.sub (.var "Q") (.const 1))) (.neg (.const 2)))
    (.pow (.var "Q") (.const 3))

/-- The polynomial `Q ^ 3 - 2 * Q ^ 2 + Q`. -/
def inverseSquareFunction : RationalFunction :=
  ofPoly (Poly.x * (Poly.x - Poly.const 1).pow 2)

/-- The power goes below the bar, and the function stays the polynomial. -/
theorem ofExpr?_simplify_inverseSquare :
    (ofExpr? "Q" inverseSquare = some inverseSquareFunction ∧
      inverseSquare.degreeBound < Poly.wordSize ∧
      (simplify inverseSquare).degreeBound < Poly.wordSize) ∧
      (ofExpr? "Q" (simplify inverseSquare) = some inverseSquareFunction ↔
        (simplify inverseSquare).ExponentsWithin expansionLimit) ∧
      ofExpr? "Q" (simplify inverseSquare) = some inverseSquareFunction := by
  have h : ofExpr? "Q" inverseSquare = some inverseSquareFunction := by with_unfolding_all rfl
  have hsimplify : simplify inverseSquare =
      .div (.pow (.var "Q") (.const 3))
        (.pow (.div (.var "Q") (.add (.var "Q") (.const (-1)))) (.const 2)) :=
    simplify_eq_of_step (by cbv) (by cbv)
  have hlt : inverseSquare.degreeBound < Poly.wordSize := by decide
  have hlt' : (simplify inverseSquare).degreeBound < Poly.wordSize := by
    rw [hsimplify]
    decide
  have hlimit : (simplify inverseSquare).ExponentsWithin expansionLimit := by
    rw [hsimplify]
    norm_num [ExponentsWithin, expansionLimit]
  exact ⟨⟨h, hlt, hlt'⟩, ofExpr?_simplify_eq_some_iff h hlt hlt',
    (ofExpr?_simplify_eq_some_iff h hlt hlt').2 hlimit⟩

/-! ## A power that cancels -/

/-- The quotient of `T / H` and `H / Q`, where `H` is the power of the variable of degree `2 ^ 63`
and `T` is its square. -/
def cancelledPowers : Expr :=
  .div (.div Poly.wordPower (Poly.hugePower 256)) (.div (Poly.hugePower 256) (.var "Q"))

/-- It simplifies to the variable.  But as it is written the square wraps around to one. -/
theorem cancelled_power_wraps_around :
    ofExpr? "Q" cancelledPowers = some ⟨.one, .monomial (2 ^ 64 - 1) 1⟩ ∧
      simplify cancelledPowers = .var "Q" ∧
      (simplify cancelledPowers).ExponentsWithin expansionLimit ∧
      ofExpr? "Q" (simplify cancelledPowers) = some ⟨.x, .one⟩ := by
  have hsimplify : simplify cancelledPowers = .var "Q" :=
    simplify_eq_of_step (by cbv) (by cbv)
  rw [hsimplify]
  exact ⟨by with_unfolding_all rfl, rfl, trivial, by with_unfolding_all rfl⟩

end RationalFunction

end MarketAlgebra
