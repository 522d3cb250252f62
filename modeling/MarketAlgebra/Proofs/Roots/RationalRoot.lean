import MarketAlgebra.Proofs.Poly.Content
import MarketAlgebra.Proofs.Poly.RealRoots
import MarketAlgebra.Roots.Real

/-!
# Rational roots and what is left without them

The rationals that the search lists are distinct roots (`areRoots_rationalRoots`).  Dividing them
out of a separable polynomial takes away these roots and no others (`remains_foldl_divideOut`): the
roots are simple, so none of them is left over.
-/

namespace MarketAlgebra.Roots

open Polynomial

variable {p q : Poly} {r : Rat} {rs : List Rat}

/-! ## The search -/

/-- The rationals are distinct roots of the polynomial. -/
structure AreRoots (p : Poly) (rs : List Rat) : Prop where
  nodup : rs.Nodup
  eval : ∀ r ∈ rs, p.eval r = 0

theorem AreRoots.nil (p : Poly) : AreRoots p [] := ⟨.nil, fun r hr => by cases hr⟩

/-- A candidate is added only when it is a root that is not in the list. -/
theorem AreRoots.addRoot (h : AreRoots p rs) (r : Rat) : AreRoots p (addRoot p rs r) := by
  rw [Roots.addRoot]
  split_ifs with hmem hroot
  · exact h
  · rw [List.contains_iff_mem] at hmem
    refine ⟨List.nodup_append.2 ⟨h.nodup, List.nodup_singleton r, fun s hs t ht => ?_⟩,
      fun s hs => ?_⟩
    · rw [List.mem_singleton.1 ht]
      rintro rfl
      exact hmem hs
    · rcases List.mem_append.1 hs with hs | hs
      · exact h.eval s hs
      · rw [List.mem_singleton.1 hs]
        exact hroot
  · exact h

theorem AreRoots.foldl_addRoot (h : AreRoots p rs) (candidates : List Rat) :
    AreRoots p (candidates.foldl (Roots.addRoot p) rs) := by
  induction candidates generalizing rs with
  | nil => exact h
  | cons r candidates ih => exact ih (h.addRoot r)

/-- Zero is a root when the constant coefficient is zero. -/
theorem areRoots_zero (p : Poly) :
    AreRoots p (if p.contentAndPrimitive.2.head? = some 0 then [0] else []) := by
  split
  case isTrue h =>
    refine ⟨List.nodup_singleton 0, fun r hr => ?_⟩
    have hcoeff := p.coeff_eq_content_mul 0
    rw [List.getD_eq_getElem?_getD, ← List.head?_eq_getElem?, h] at hcoeff
    rw [List.mem_singleton.1 hr, Poly.eval_eq, ← coeff_zero_eq_eval_zero, ← Poly.coeff_eq, hcoeff]
    simp
  case isFalse => exact .nil p

/-- The search lists distinct roots only. -/
theorem areRoots_rationalRoots (p : Poly) : AreRoots p (rationalRoots p) := by
  rw [rationalRoots]
  split
  · split
    · exact (areRoots_zero p).foldl_addRoot _
    · exact areRoots_zero p
  · exact areRoots_zero p

/-! ## Dividing out -/

/-- A root is divided out exactly. -/
theorem toPolynomial_eq_divideOut_mul (h : p.eval r = 0) :
    p.toPolynomial = (divideOut p r).toPolynomial * (X - C r) := by
  have hlinear : (Poly.x - .const r).toPolynomial = X - C r := by simp
  rw [Poly.eval_eq, ← IsRoot.def, ← dvd_iff_isRoot, ← hlinear] at h
  obtain ⟨q, hq, hmul⟩ := Poly.divExact?_of_dvd (by rw [hlinear]; exact X_sub_C_ne_zero r) h
  rw [divideOut, hq, Option.getD_some, ← hlinear, hmul]

/-- What is left of a separable polynomial without one of its roots. -/
theorem separable_divideOut (hsep : p.toPolynomial.Separable) (h : p.eval r = 0) :
    (divideOut p r).toPolynomial.Separable ∧ (divideOut p r).real.eval (r : ℝ) ≠ 0 ∧
      ∀ a : ℝ, p.real.eval a = 0 ↔ a = r ∨ (divideOut p r).real.eval a = 0 := by
  have hmul := toPolynomial_eq_divideOut_mul h
  have hreal : p.real = (divideOut p r).real * (X - C (r : ℝ)) := by
    rw [Poly.real, hmul, Polynomial.map_mul, Polynomial.map_sub, map_X, map_C, Poly.real]
    rfl
  rw [hmul] at hsep
  refine ⟨hsep.of_mul_left, fun hz => ?_, fun a => ?_⟩
  · rw [Poly.eval_real_ratCast, Rat.cast_eq_zero, Poly.eval_eq] at hz
    have hdvd := dvd_iff_isRoot.2 (IsRoot.def.2 hz)
    exact not_isUnit_X_sub_C r (hsep.isCoprime.isUnit_of_dvd' hdvd dvd_rfl)
  · rw [hreal, eval_mul, eval_sub, eval_X, eval_C, mul_eq_zero, sub_eq_zero, or_comm]

/-- The roots of the first polynomial are those of the second and the listed rationals. -/
structure Remains (p : Poly) (rs : List Rat) (q : Poly) : Prop where
  separable : q.toPolynomial.Separable
  card : p.realRoots.card = rs.length + q.realRoots.card
  mem_iff : ∀ a : ℝ, p.real.eval a = 0 ↔ (∃ r ∈ rs, a = r) ∨ q.real.eval a = 0
  disjoint : ∀ r ∈ rs, q.real.eval (r : ℝ) ≠ 0

/-- One root is divided out. -/
theorem card_divideOut (hsep : p.toPolynomial.Separable) (h : p.eval r = 0) :
    p.realRoots.card = 1 + (divideOut p r).realRoots.card := by
  obtain ⟨hq, hne, hroots⟩ := separable_divideOut hsep h
  have hinsert : p.realRoots = insert (r : ℝ) (divideOut p r).realRoots := by
    ext a
    rw [Poly.mem_realRoots hsep.ne_zero, hroots, Finset.mem_insert, Poly.mem_realRoots hq.ne_zero]
  have hnot : (r : ℝ) ∉ (divideOut p r).realRoots := by
    rw [Poly.mem_realRoots hq.ne_zero]
    exact hne
  rw [hinsert, Finset.card_insert_of_notMem hnot, add_comm]

/-- All listed roots are divided out, one after the other. -/
theorem remains_foldl_divideOut (hsep : p.toPolynomial.Separable) (h : AreRoots p rs) :
    Remains p rs (rs.foldl divideOut p) := by
  induction rs generalizing p with
  | nil => exact ⟨hsep, by simp, by simp, by simp⟩
  | cons r rs ih =>
    obtain ⟨hr, hnodup⟩ := List.nodup_cons.1 h.nodup
    have hroot := h.eval r List.mem_cons_self
    obtain ⟨hq, hne, hroots⟩ := separable_divideOut hsep hroot
    have hrest : AreRoots (divideOut p r) rs := by
      refine ⟨hnodup, fun s hs => ?_⟩
      have hsroot := h.eval s (List.mem_cons_of_mem r hs)
      have hsr : (s : ℝ) ≠ r := by
        intro heq
        exact hr (Rat.cast_injective heq ▸ hs)
      rw [← Rat.cast_eq_zero (α := ℝ), ← Poly.eval_real_ratCast] at hsroot ⊢
      exact ((hroots s).1 hsroot).resolve_left hsr
    have hremains := ih hq hrest
    refine ⟨hremains.separable, ?_, fun a => ?_, fun s hs => ?_⟩
    · rw [card_divideOut hsep hroot, hremains.card, List.length_cons, List.foldl_cons]
      omega
    · rw [hroots, hremains.mem_iff, List.foldl_cons, List.exists_mem_cons_iff, or_assoc]
    · rcases List.mem_cons.1 hs with rfl | hs
      · intro hz
        exact hne ((hremains.mem_iff _).2 (.inr hz))
      · exact hremains.disjoint s hs

end MarketAlgebra.Roots
