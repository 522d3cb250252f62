import Mathlib.Algebra.Algebra.Rat
import Mathlib.Algebra.Polynomial.Roots
import Mathlib.Data.Real.Basic
import MarketAlgebra.Proofs.Poly.Division

/-!
# Real roots

`Poly.real` is a polynomial over the reals, and `Poly.realRoots` is the finite set of its roots.
The square-free part has the same roots, and none of them is a root of its derivative.
-/

namespace MarketAlgebra.Poly

open Polynomial

/-- The polynomial over the reals. -/
noncomputable def real (p : Poly) : ℝ[X] := p.toPolynomial.map (algebraMap ℚ ℝ)

/-- The distinct real roots of a polynomial that is not zero. -/
noncomputable def realRoots (p : Poly) : Finset ℝ := p.real.roots.toFinset

variable {p q : Poly}

@[simp] theorem real_neg (p : Poly) : (-p).real = -p.real := by
  rw [real, toPolynomial_neg, Polynomial.map_neg, real]

@[simp] theorem real_derivative (p : Poly) :
    p.derivative.real = Polynomial.derivative p.real := by
  rw [real, toPolynomial_derivative, real, Polynomial.derivative_map]

theorem real_of_toPolynomial_eq_mul {r : Poly}
    (h : p.toPolynomial = q.toPolynomial * r.toPolynomial) : p.real = q.real * r.real := by
  rw [real, h, Polynomial.map_mul, real, real]

theorem real_eq_zero_iff : p.real = 0 ↔ p.toPolynomial = 0 :=
  Polynomial.map_eq_zero (algebraMap ℚ ℝ)

/-- The value at a rational point. -/
theorem eval_real_ratCast (p : Poly) (a : ℚ) : p.real.eval (a : ℝ) = (p.eval a : ℚ) := by
  have ha : (a : ℝ) = algebraMap ℚ ℝ a := rfl
  rw [real, eval_eq, eval_map, ha, eval₂_at_apply]
  rfl

/-- Division with remainder over the reals. -/
theorem real_divMod (p d : Poly) :
    (divMod p d).1.real * d.real + (divMod p d).2.real = p.real := by
  rw [real, real, real, ← Polynomial.map_mul, ← Polynomial.map_add, divMod_spec, real]

theorem mem_realRoots (hp : p.toPolynomial ≠ 0) {a : ℝ} : a ∈ p.realRoots ↔ p.real.eval a = 0 := by
  rw [realRoots, Multiset.mem_toFinset, mem_roots (mt real_eq_zero_iff.1 hp), IsRoot.def]

/-- Polynomials that divide each other have the same roots. -/
theorem realRoots_eq_of_associated (h : Associated p.toPolynomial q.toPolynomial) :
    p.realRoots = q.realRoots := by
  have hreal : Associated p.real q.real := by
    obtain ⟨u, hu⟩ := h
    refine ⟨Units.map (mapRingHom (algebraMap ℚ ℝ)).toMonoidHom u, ?_⟩
    rw [real, real, ← hu, Polynomial.map_mul]
    rfl
  rw [realRoots, realRoots, hreal.roots_eq]

/-- The square-free part has the same real roots. -/
theorem realRoots_squareFreePart (h : 1 < p.size) : p.squareFreePart.realRoots = p.realRoots := by
  have hp : p.toPolynomial ≠ 0 := mt size_eq_zero.2 (by omega)
  obtain ⟨q, hmul, hassoc⟩ := squareFreePart_spec h
  have hq : q.toPolynomial ≠ 0 := by
    intro hz
    exact hp (by rw [hmul, hz, zero_mul])
  have hreal := real_of_toPolynomial_eq_mul hmul
  have hdvd : (gcd p p.derivative).real ∣ Polynomial.derivative p.real := by
    rw [← real_derivative, real, real]
    exact Polynomial.map_dvd _ (gcd_dvd_right p p.derivative)
  rw [realRoots_eq_of_associated hassoc]
  ext a
  rw [mem_realRoots hq, mem_realRoots hp]
  constructor
  · intro ha
    rw [hreal, eval_mul, ha, zero_mul]
  · intro ha
    exact isRoot_of_dvd_derivative (mt real_eq_zero_iff.1 hp) hreal hdvd ha

/-- A root of a separable polynomial is not a root of its derivative. -/
theorem eval_derivative_ne_zero (h : p.toPolynomial.Separable) {a : ℝ} (ha : p.real.eval a = 0) :
    (Polynomial.derivative p.real).eval a ≠ 0 :=
  h.map.eval₂_derivative_ne_zero (RingHom.id ℝ) (by rwa [eval₂_id])

end MarketAlgebra.Poly
