import MarketAlgebra.Engine.Exact
import MarketAlgebra.Proofs.Market.Rational
import MarketAlgebra.Proofs.RationalFunction.Polynomial
import MarketAlgebra.Proofs.Simplify.Logarithm
import MarketAlgebra.Proofs.Substitution

/-!
# Substitution by the built-in engine

The engine replaces a variable by a constant, simplifies and evaluates.  Where the expression has a
value, the result is that value (`substituted_value_is_exact`).  Where it has none, the evaluation
can only report what the simplification left in place.  In a polynomial, a quotient of polynomials
and a function of a polynomial everything that is undefined is left in place (`Reported`).

In a sum it is not.  Equal factors above and below the bar of a summand are cancelled before anyone
looks at their value, so `2 * Q / Q + 3` is `4` at zero as well (`undefined_summand_is_cancelled`).
-/

namespace MarketAlgebra

open Binary64 MarketAlgebra.Expr Polynomial

variable {x : String} {e a b : Expr} {p q : Poly} {v : Rat} {value : Scalar}

/-! ## Undefined points -/

/-- A quotient with a zero below the bar is left to the evaluation. -/
theorem simplify_div_zero {c : Rat} (ha : a.rational? = some c) (hb : b.rational? = some 0) :
    simplify (.div a b) = .div (.const c) (.const 0) := by
  refine simplify_eq_of_step ?_ rfl
  rw [Simplify.step, Simplify.step_of_rational? ha, Simplify.step_of_rational? hb]
  rfl

theorem evaluate_div_zero (c : Rat) : (Expr.div (.const c) (.const 0)).evaluate =
    .error (.divisionByZero (.div (.const c) (.const 0))) := by
  have hzero : (Expr.const 0).evalIn (fun _ => none) = .ok (ofRat 0) :=
    evaluate_const_eq_ok_iff.2 ⟨isFinite_ofRat (by norm_num), rfl⟩
  have hbeq : (ofRat 0 == 0) = true := by decide
  rw [evaluate, evalIn, hzero]
  simp only [bind, Except.bind, if_pos hbeq]

/-- A logarithm that is not zero is left to the evaluation. -/
theorem simplify_log {c : Rat} (ha : a.rational? = some c) (hc : c ≠ 1) :
    simplify (.call .log a) = .call .log (.const c) := by
  have hatom := Simplify.atom_log hc
  refine simplify_eq_of_step ?_ hatom.step
  rw [Simplify.step, Simplify.step_of_rational? ha]
  exact hatom.step

/-- What passes the evaluation of a logarithm is positive. -/
theorem pos_of_evaluate_log {c : Rat} {f : Float}
    (h : (Expr.call .log (.const c)).evaluate = .ok f) : 0 < c := by
  have hbind := h
  rw [evaluate, evalIn] at hbind
  obtain ⟨y, hy, -⟩ := bind_eq_ok_iff.1 hbind
  have hfinite := (evaluate_const_eq_ok_iff.1 hy).1
  by_contra hc
  rw [evaluate_log_of_nonpos (not_lt.1 hc) hfinite] at h
  cases h

/-- The poles of the tangent are not rational. -/
theorem cos_ratCast_ne_zero (q : Rat) : Real.cos q ≠ 0 := by
  intro hzero
  obtain ⟨k, hk⟩ := Real.cos_eq_zero_iff.1 hzero
  have hodd : (2 * k + 1 : ℝ) ≠ 0 := by
    norm_cast
    omega
  refine irrational_pi ⟨2 * q / (2 * k + 1), ?_⟩
  push_cast
  rw [hk]
  field_simp

/-- Nothing undefined is simplified away in a polynomial, in a quotient of polynomials, or in a
function of a polynomial. -/
inductive Reported (x : String) : Expr → Prop
  | poly {e : Expr} {F : ℚ[X]} : Poly.Denotes x e F → Reported x e
  | div {a b : Expr} {F G : ℚ[X]} : Poly.Denotes x a F → Poly.Denotes x b G → Reported x (.div a b)
  | call {f : Fn} {a : Expr} {F : ℚ[X]} : Poly.Denotes x a F → Reported x (.call f a)

/-- The value of a polynomial expression at a rational. -/
theorem Poly.Denotes.hasValue_ratCast {F : ℚ[X]} (h : Poly.Denotes x e F) (s : String → ℝ)
    (v : Rat) : e.HasValue (Function.update s x v) (F.eval v : Rat) := by
  have hv : (v : ℝ) = algebraMap ℚ ℝ v := rfl
  have hvalue := h.hasValue_update s (algebraMap ℚ ℝ v)
  rwa [eval_map, eval₂_at_apply, ← hv] at hvalue

/-- Without an error there is a value. -/
theorem Reported.defined (he : Reported x e)
    (h : Scalar.ofExpr (e.substitute x (.const v)) = .ok value) (s : String → ℝ) :
    e.Defined (Function.update s x v) := by
  obtain ⟨-, heval⟩ := Market.ofExpr_eq_ok_iff.1 h
  cases he with
  | poly ha => exact (ha.hasValue_ratCast s v).1
  | @div _ b _ G ha hb =>
    have hdenom := hb.hasValue_ratCast s v
    refine ⟨(ha.hasValue_ratCast s v).1, hdenom.1, ?_⟩
    rw [hdenom.2, Rat.cast_ne_zero]
    intro hzero
    have hb := hb.rational?_substitute v
    rw [hzero] at hb
    rw [substitute, simplify_div_zero (ha.rational?_substitute v) hb, evaluate_div_zero] at heval
    cases heval
  | @call f a F ha =>
    have harg := ha.hasValue_ratCast s v
    refine ⟨harg.1, ?_⟩
    rw [harg.2]
    cases f with
    | sin | cos | exp => trivial
    | tan => exact cos_ratCast_ne_zero _
    | log =>
      by_cases hone : F.eval v = 1
      · rw [hone, Rat.cast_one]
        exact one_pos
      · rw [substitute, simplify_log (ha.rational?_substitute v) hone] at heval
        exact Rat.cast_pos.2 (pos_of_evaluate_log heval)

/-- What the engine gives for a constant in place of a variable is the value of the expression
there, wherever it has one.  An expression whose undefined points are reported then has one. -/
theorem substituted_value_is_exact
    (h : (Engine.exact.substitute e x (.const v)).run = .ok value) :
    (∀ s w, e.HasValue (Function.update s x v) w → value.exact.HasValue s w) ∧
      (Reported x e →
        ∀ s, ∃ w, e.HasValue (Function.update s x v) w ∧ value.exact.HasValue s w) := by
  have hvalue : Scalar.ofExpr (e.substitute x (.const v)) = .ok value :=
    mapError_eq_ok_iff.1 h
  have hkeeps : ∀ s w, e.HasValue (Function.update s x v) w → value.exact.HasValue s w := by
    intro s w hw
    rw [(Market.ofExpr_eq_ok_iff.1 hvalue).1]
    have hconst : (Expr.const v).HasValue s v := ⟨trivial, rfl⟩
    exact (keeps_simplify s _).hasValue ((hasValue_substitute_iff hconst e).2 hw)
  refine ⟨hkeeps, fun he s => ?_⟩
  have hdefined := he.defined hvalue s
  exact ⟨_, hdefined.hasValue, hkeeps s _ hdefined.hasValue⟩

/-- The average of `Q ^ 2 + 2` at `3`. -/
theorem substituted_value_of_average :
    let e : Expr := .div (.add (.pow (.var "Q") (.const 2)) (.const 2)) (.var "Q")
    (Engine.exact.substitute e "Q" (.const 3)).run = .ok (Market.rationalScalar (11 / 3)) ∧
      Reported "Q" e ∧ (∀ s w, e.HasValue (Function.update s "Q" (3 : Rat)) w →
        (Expr.const (11 / 3)).HasValue s w) ∧
      ∀ s, ∃ w, e.HasValue (Function.update s "Q" (3 : Rat)) w ∧
        (Expr.const (11 / 3)).HasValue s w := by
  intro e
  have hrational : (e.substitute "Q" (.const 3)).rational? = some (11 / 3) := by cbv
  have h : (Engine.exact.substitute e "Q" (.const 3)).run = .ok (Market.rationalScalar (11 / 3)) :=
    mapError_eq_ok_iff.2
      (Market.ofExpr_of_rational? hrational (Market.abs_le_of_le_ten_pow (by norm_num)))
  have he : Reported "Q" e := .div (.add (.pow .var (by cbv)) (.const 2)) .var
  obtain ⟨hkeeps, hreported⟩ := substituted_value_is_exact h
  exact ⟨h, he, hkeeps, hreported he⟩

/-- At zero the first summand of `2 * Q / Q + 3` is `0 / 0`, and the engine gives `4`. -/
theorem undefined_summand_is_cancelled :
    let e : Expr := .add (.div (.mul (.const 2) (.var "Q")) (.var "Q")) (.const 3)
    (Engine.exact.substitute e "Q" (.const 0)).run = .ok (Market.rationalScalar 4) ∧
      ∀ s : String → ℝ, ¬e.Defined (Function.update s "Q" (0 : Rat)) := by
  intro e
  have hsimplify : simplify (e.substitute "Q" (.const 0)) = .const 4 :=
    simplify_eq_of_step (by cbv) rfl
  have hvalue : Scalar.ofExpr (e.substitute "Q" (.const 0)) = .ok (Market.rationalScalar 4) := by
    refine Market.ofExpr_eq_ok_iff.2 ⟨hsimplify.symm, ?_⟩
    rw [hsimplify]
    exact Market.evaluate_const (Market.abs_le_of_le_ten_pow (by norm_num))
  refine ⟨mapError_eq_ok_iff.2 hvalue, fun s h => h.1.2.2 ?_⟩
  simp [real]

end MarketAlgebra
