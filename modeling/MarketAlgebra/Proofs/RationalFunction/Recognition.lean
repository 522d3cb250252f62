import MarketAlgebra.Proofs.Derivative
import MarketAlgebra.Proofs.Simplify.IntegerPowers

/-!
# Recognition of rational functions

An expression with integer exponents within the limit, which has a value at almost all points and
whose degrees are words, expands to a rational function (`exists_expands`).  The simplified
derivative of an expression that expands is of this form, except that its exponents may be beyond
the limit (`integerPowers_derivative`).
-/

namespace MarketAlgebra

open Filter MarketAlgebra.Expr

namespace Expr

/-- Every exponent that is a constant lies in `[-n, n]`. -/
def ExponentsWithin (n : Nat) : Expr → Prop
  | .var _ | .const _ => True
  | .add a b | .sub a b | .mul a b | .div a b => a.ExponentsWithin n ∧ b.ExponentsWithin n
  | .pow a (.const c) => a.ExponentsWithin n ∧ |c| ≤ n
  | .pow a b => a.ExponentsWithin n ∧ b.ExponentsWithin n
  | .neg a | .call _ a => a.ExponentsWithin n

variable {x : String} {e : Expr}

/-- The exponents of an expression of constants that is computed are integers. -/
theorem computedPowers_of_rational? {q : Rat} (h : e.rational? = some q) :
    e.ComputedPowers x := by
  rw [rational?_eq_some_iff] at h
  induction h with
  | const c => trivial
  | add _ _ iha ihb | sub _ _ iha ihb | mul _ _ iha ihb | div _ _ _ iha ihb => exact ⟨iha, ihb⟩
  | neg _ ih => exact ih
  | @pow a b c d v _ hb hpow iha _ =>
    simp only [rationalPower?, Option.ite_none_right_eq_some, Bool.and_eq_true] at hpow
    refine ⟨iha, d.num, ?_⟩
    rw [rational?_eq_some_iff.2 hb, ← Simplify.eq_intCast_of_isInt hpow.1.1.1]

end Expr

open MarketAlgebra.Derivative in
/-- The rules of differentiation keep the exponents integers. -/
theorem integerPowers_derivative {x : String} {e : Expr} (h : e.ComputedPowers x) :
    (derivative x e).IntegerPowers x := by
  induction e with
  | var name =>
    rw [derivative]
    split <;> trivial
  | const c => trivial
  | add a b iha ihb => exact Simplify.integerPowers_add (iha h.1) (ihb h.2)
  | sub a b iha ihb => exact Simplify.integerPowers_sub (iha h.1) (ihb h.2)
  | mul a b iha ihb =>
    have ha := (iha h.1).computed
    have hb := (ihb h.2).computed
    exact integerPowers_simplifyOnce ⟨⟨ha, h.2⟩, h.1, hb⟩
  | div a b iha ihb =>
    have ha := (iha h.1).computed
    have hb := (ihb h.2).computed
    rw [derivative]
    split
    · exact integerPowers_simplifyOnce ⟨⟨⟨ha, h.2⟩, h.1, hb⟩, h.2, 2, rfl⟩
    · exact integerPowers_simplifyOnce ⟨ha, h.2⟩
  | pow a b iha _ =>
    obtain ⟨ha, k, hk⟩ := h
    have hpred : (predecessor b).rational? = some ((k - 1 : ℤ) : Rat) := by
      rw [rational?_predecessor hk, Int.cast_sub, Int.cast_one]
    rw [derivative, if_neg (Bool.eq_false_iff.1 (mentions_of_rational? hk x))]
    exact integerPowers_simplifyOnce
      ⟨⟨computedPowers_of_rational? hk, ha, k - 1, hpred⟩, (iha ha).computed⟩
  | neg a ih => exact integerPowers_simplifyOnce (ih h).computed
  | call f a => exact h.elim

namespace RationalFunction

variable {f : RationalFunction} {x : String} {e : Expr}

/-- The exponents of an expression that expands are computed to integers. -/
theorem Expands.computedPowers (h : Expands x e f) : e.ComputedPowers x := by
  induction h with
  | var => rfl
  | const c => trivial
  | add _ _ _ iha ihb | sub _ _ _ iha ihb | mul _ _ _ iha ihb | div _ _ _ _ iha ihb =>
    exact ⟨iha, ihb⟩
  | neg _ ih => exact ih
  | pow _ hk _ _ _ ih => exact ⟨ih, _, rational?_of_integerExponent? hk⟩

/-- An expression with integer exponents within the limit, whose degrees are words, expands to a
rational function when it has a value at almost all points. -/
theorem exists_expands (he : e.IntegerPowers x) (hlimit : e.ExponentsWithin expansionLimit)
    (hlt : e.degreeBound < Poly.wordSize) {s : String → ℝ}
    (h : ∀ᶠ t in cofinite, e.Defined (Function.update s x t)) : ∃ f, Expands x e f := by
  induction e with
  | var name =>
    obtain rfl : name = x := he
    exact ⟨_, .var⟩
  | const c => exact ⟨_, .const c⟩
  | add a b iha ihb =>
    rw [degreeBound] at hlt
    obtain ⟨f, hf⟩ := iha he.1 hlimit.1 (by omega) (h.mono fun t ht => ht.1)
    obtain ⟨g, hg⟩ := ihb he.2 hlimit.2 (by omega) (h.mono fun t ht => ht.2)
    exact ⟨_, hf.add_of_lt hg hlt⟩
  | sub a b iha ihb =>
    rw [degreeBound] at hlt
    obtain ⟨f, hf⟩ := iha he.1 hlimit.1 (by omega) (h.mono fun t ht => ht.1)
    obtain ⟨g, hg⟩ := ihb he.2 hlimit.2 (by omega) (h.mono fun t ht => ht.2)
    exact ⟨_, hf.sub_of_lt hg hlt⟩
  | mul a b iha ihb =>
    rw [degreeBound] at hlt
    obtain ⟨f, hf⟩ := iha he.1 hlimit.1 (by omega) (h.mono fun t ht => ht.1)
    obtain ⟨g, hg⟩ := ihb he.2 hlimit.2 (by omega) (h.mono fun t ht => ht.2)
    exact ⟨_, hf.mul_of_lt hg hlt⟩
  | div a b iha ihb =>
    rw [degreeBound] at hlt
    have hlt' : b.degreeBound < Poly.wordSize := by omega
    obtain ⟨f, hf⟩ := iha he.1 hlimit.1 (by omega) (h.mono fun t ht => ht.1)
    obtain ⟨g, hg⟩ := ihb he.2 hlimit.2 hlt' (h.mono fun t ht => ht.2.1)
    refine ⟨_, hf.div_of_lt hg hlt fun hzero => ?_⟩
    obtain ⟨t, hvalue, hd⟩ := ((hg.eventually_hasValue hlt' s).and h).exists
    exact hd.2.2 (hvalue.2.trans (value_eq_zero hzero))
  | neg a ih =>
    obtain ⟨f, hf⟩ := ih he hlimit hlt h
    exact ⟨_, .neg hf⟩
  | pow a b iha _ =>
    obtain ⟨ha, k, rfl⟩ := he
    obtain ⟨hk, habs⟩ := integerExponent?_const hlimit.2
    have hlt' := (degreeBound_le_pow a _).trans_lt hlt
    obtain ⟨f, hf⟩ := iha ha hlimit.1 hlt' (h.mono fun t ht => ht.1)
    refine ⟨_, hf.pow_of_lt hk habs (fun hneg hzero => ?_) hlt⟩
    obtain ⟨t, hvalue, hd⟩ := ((hf.eventually_hasValue hlt' s).and h).exists
    exact (defined_pow_const_int_iff.1 hd).2 hneg (hvalue.2.trans (value_eq_zero hzero))
  | call f a => exact he.elim

end RationalFunction

end MarketAlgebra
