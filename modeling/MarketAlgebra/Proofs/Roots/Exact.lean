import Mathlib.NumberTheory.Real.Irrational
import MarketAlgebra.Proofs.Roots.LowDegree

/-!
# Linear and quadratic equations are solved exactly

Up to degree two the list of real roots is a rearrangement of the exact entries, so it denotes the
roots, each one once (`denotes_realRoots`).

A surd is listed only for an irrational root.  Pulling out square factors stops at a trial limit,
but before that a square is recognized as a whole, so what is left under the root is never a square
(`SurdForm.not_isSquare_inside`), and the width in front of the root is not zero.
-/

namespace MarketAlgebra

/-! ## Surds that are left -/

/-- The root of a square is recognized. -/
theorem floorSqrt_mul_self (m : Nat) : floorSqrt (m * m) = m := by
  obtain ⟨hle, hlt⟩ := floorSqrt_mul_self_le_and_lt (m * m)
  have hup : floorSqrt (m * m) ≤ m := Nat.mul_self_le_mul_self_iff.1 hle
  have hlow : m < floorSqrt (m * m) + 1 := Nat.mul_self_lt_mul_self_iff.1 hlt
  omega

theorem SurdForm.inside_ofNat_of_isSquare {n : Nat} (h : IsSquare n) : (ofNat n).inside = 1 := by
  obtain ⟨m, rfl⟩ := h
  have hroot : floorSqrt (m * m) * floorSqrt (m * m) = m * m := by rw [floorSqrt_mul_self]
  rw [ofNat, if_pos hroot]

/-- What is left under a root is not a square. -/
theorem SurdForm.not_isSquare_inside {n : Nat} (h : (ofNat n).inside ≠ 1) :
    ¬IsSquare (ofNat n).inside := by
  rintro ⟨k, hk⟩
  have hsquare := square_ofNat n
  rw [square, hk, mul_mul_mul_comm] at hsquare
  exact h (inside_ofNat_of_isSquare ⟨_, hsquare.symm⟩)

/-! ## Degrees -/

theorem Poly.size_of_degree? {p : Poly} {n : Nat} (h : p.degree? = some n) : p.size = n + 1 := by
  rw [degree?] at h
  rw [size]
  cases hterms : p.terms with
  | nil =>
    rw [hterms] at h
    cases h
  | cons t ts =>
    rw [hterms] at h
    exact congrArg (· + 1) (Option.some.inj h)

namespace Roots

open Polynomial

variable {p : Poly}

theorem value_surdRoot (center offset : Rat) {inside : Nat} (h : 0 < inside) :
    (surdRoot center offset inside).1.value = center + offset * Real.sqrt inside :=
  (hasValue_surdRoot center offset h _).2

theorem irrational_surdRoot (center : Rat) {offset : Rat} {inside : Nat} (hoffset : offset ≠ 0)
    (hinside : ¬IsSquare inside) : Irrational (surdRoot center offset inside).1.value := by
  have hpos : 0 < inside := by
    refine Nat.pos_of_ne_zero ?_
    rintro rfl
    exact hinside ⟨0, rfl⟩
  rw [value_surdRoot center offset hpos]
  exact ((irrational_sqrt_natCast_iff.2 hinside).ratCast_mul hoffset).ratCast_add center

/-! ## Rational roots are constants -/

/-- The middle between the roots of a quadratic polynomial. -/
def middle (p : Poly) : Rat := -p.coeff 1 / (2 * p.coeff 2)

/-- What the entries of a quadratic polynomial can be, where `center` is the middle between its
roots. -/
inductive QuadraticEntries (center : Rat) : List Approximated → Prop
  | none : QuadraticEntries center []
  | double (a : Rat) : QuadraticEntries center [approximated a]
  | rational {a b : Rat} (h : a < b) : QuadraticEntries center [approximated a, approximated b]
  | surd {offset : Rat} {inside : Nat} (hoffset : 0 < offset) (hinside : ¬IsSquare inside) :
      QuadraticEntries center [surdRoot center (-offset) inside, surdRoot center offset inside]

theorem quadraticEntries (hp : p.size = 3) : QuadraticEntries (middle p) (quadraticRoots p) := by
  obtain ⟨d, hd⟩ : ∃ d, d = p.coeff 1 * p.coeff 1 - 4 * p.coeff 2 * p.coeff 0 := ⟨_, rfl⟩
  rw [quadraticRoots, ← hd]
  split_ifs with hneg hzero
  · exact .none
  · exact .double _
  · have hd' : 0 < d := lt_of_le_of_ne (not_lt.1 hneg) (Ne.symm hzero)
    dsimp only
    obtain ⟨surd, hsurd⟩ : ∃ t, t = SurdForm.ofNat (d.num.toNat * d.den) := ⟨_, rfl⟩
    obtain ⟨w, hw⟩ : ∃ w, w = mkRat surd.outside d.den / (2 * p.coeff 2).abs := ⟨_, rfl⟩
    obtain ⟨-, hpos, -⟩ := halfWidth_sq (coeff_ne_zero hp) hd' hsurd hw
    have hwidth : 0 < w := Rat.cast_pos.1 (pos_of_mul_pos_left hpos (Real.sqrt_nonneg _))
    rw [← hsurd, ← hw]
    split
    case isTrue => exact .rational (by linarith)
    case isFalse hinside =>
      refine .surd hwidth ?_
      rw [hsurd] at hinside ⊢
      exact SurdForm.not_isSquare_inside hinside

/-- The entry of a rational root is its constant with its approximation. -/
theorem QuadraticEntries.irrational_or_approximated {center : Rat} {es : List Approximated}
    (h : QuadraticEntries center es) {e : Approximated} (he : e ∈ es) :
    Irrational e.1.value ∨ ∃ a, e = approximated a := by
  cases h with
  | none => cases he
  | double a => exact .inr ⟨a, List.mem_singleton.1 he⟩
  | rational => exact .inr ((List.mem_pair.1 he).elim (⟨_, ·⟩) (⟨_, ·⟩))
  | surd hoffset hinside =>
    rcases List.mem_pair.1 he with rfl | rfl
    · exact .inl (irrational_surdRoot center (neg_ne_zero.2 hoffset.ne') hinside)
    · exact .inl (irrational_surdRoot center hoffset.ne' hinside)

theorem irrational_or_approximated_of_mem_remainingRoots {e : Approximated}
    (he : e ∈ remainingRoots p) : Irrational e.1.value ∨ ∃ a, e = approximated a := by
  rw [remainingRoots] at he
  split at he
  case h_1 => cases he
  case h_2 => cases he
  case h_3 => exact .inr ⟨_, List.mem_singleton.1 he⟩
  case h_4 hsize => exact (quadraticEntries hsize).irrational_or_approximated he
  case h_5 =>
    obtain ⟨a, -, rfl⟩ := List.mem_map.1 he
    exact .inr ⟨a, rfl⟩

/-- What is not listed as a constant is irrational, for polynomials of any degree. -/
theorem irrational_or_const_of_mem_listed {e : Expr} (he : e ∈ listed p) :
    Irrational e.value ∨ ∃ a, e = .const a := by
  rw [← map_found] at he
  obtain ⟨f, hf, rfl⟩ := List.mem_map.1 he
  rcases List.mem_append.1 hf with hf | hf
  · obtain ⟨a, -, rfl⟩ := List.mem_map.1 hf
    exact .inr ⟨a, rfl⟩
  · refine (irrational_or_approximated_of_mem_remainingRoots hf).imp_right ?_
    rintro ⟨a, rfl⟩
    exact ⟨a, rfl⟩

/-! ## Low degrees -/

/-- Up to degree two the listed expressions denote the real roots, each one once. -/
theorem denotes_realRoots (hp : p.toPolynomial ≠ 0) (h : p.size ≤ 3) : Denotes p (realRoots p) := by
  have hexact := exact_exactRoots hp
  have hlisted := listed_of_size_le hp h
  have hperm := perm_realRoots hp (hlisted ▸ nodup_exactRoots hp)
  refine ⟨fun e he => ?_, ?_, fun a => ?_⟩
  · rw [mem_realRoots hp, hlisted] at he
    exact hexact.hasValue e he
  · rw [(hperm.map Expr.value).nodup_iff, hlisted]
    exact hexact.nodup
  · rw [List.mem_map, ← exists_mem_listed_iff hp h]
    simp only [mem_realRoots hp]

/-- The roots of a polynomial of degree one or two are listed exactly: the listed expressions denote
the real roots, each one once, and a root is listed as a constant exactly when it is rational. -/
theorem low_degree_roots_are_exact (h : p.degree? = some 1 ∨ p.degree? = some 2) :
    Denotes p (realRoots p) ∧
      ∀ e ∈ realRoots p, (∃ a : Rat, e = .const a) ↔ ∃ a : Rat, e.value = a := by
  have hsize : p.size = 2 ∨ p.size = 3 := h.imp Poly.size_of_degree? Poly.size_of_degree?
  have hp : p.toPolynomial ≠ 0 := mt Poly.size_eq_zero.2 (by omega)
  refine ⟨denotes_realRoots hp (by omega), fun e he => ⟨?_, ?_⟩⟩
  · rintro ⟨a, rfl⟩
    exact ⟨a, rfl⟩
  · rintro ⟨a, ha⟩
    have hrational : ¬Irrational e.value := not_not.2 ⟨a, ha.symm⟩
    exact (irrational_or_const_of_mem_listed ((mem_realRoots hp).1 he)).resolve_left hrational

/-- The equation `x ^ 2 = 2` is solved by a surd. -/
theorem low_degree_roots_are_exact_of_square :
    (Poly.x * .x - .const 2).degree? = some 2 ∧
      ∃ e ∈ realRoots (.x * .x - .const 2), e.value = Real.sqrt 2 ∧ ∀ a, e ≠ .const a := by
  have hdegree : (Poly.x * .x - .const 2).degree? = some 2 := by decide +kernel
  obtain ⟨hdenotes, hconst⟩ := low_degree_roots_are_exact (.inr hdegree)
  have hreal : (Poly.x * .x - .const 2).real = X * X - C 2 := by
    rw [Poly.real, Poly.toPolynomial_sub, Poly.toPolynomial_mul_of_size_le (by decide)]
    simp
  have hroot : (Poly.x * .x - .const 2).real.eval (Real.sqrt 2) = 0 := by
    rw [hreal, eval_sub, eval_mul, eval_X, eval_C, Real.mul_self_sqrt (by norm_num), sub_self]
  obtain ⟨e, he, hvalue⟩ := List.mem_map.1 ((hdenotes.mem_iff _).2 hroot)
  refine ⟨hdegree, e, he, hvalue, ?_⟩
  intro a ha
  obtain ⟨b, hb⟩ := (hconst e he).1 ⟨a, ha⟩
  exact irrational_sqrt_two ⟨b, by rw [← hb, hvalue]⟩

end Roots

end MarketAlgebra
