import MarketAlgebra.Proofs.Roots.Written

/-!
# Roots of polynomials of low degree

What is left of a polynomial without its rational roots divides it (`remaining_dvd`), so it is no
larger.  Up to degree two nothing is approximated, and the listed roots are all real roots
(`exists_mem_listed_iff`).  The root of a linear polynomial is listed as a constant.
-/

namespace MarketAlgebra

open Polynomial

namespace Roots

variable {p q : Poly}

/-- A divisor is no larger. -/
theorem size_le_of_dvd (hp : p.toPolynomial ≠ 0) (h : q.toPolynomial ∣ p.toPolynomial) :
    q.size ≤ p.size := by
  have hq : q.toPolynomial ≠ 0 := ne_zero_of_dvd_ne_zero hp h
  rw [Poly.size_eq hp, Poly.size_eq hq]
  exact Nat.succ_le_succ (natDegree_le_of_dvd h hp)

theorem squareFreePart_dvd (p : Poly) : p.squareFreePart.toPolynomial ∣ p.toPolynomial := by
  by_cases h : 1 < p.size
  · obtain ⟨q, hmul, hassoc⟩ := Poly.squareFreePart_spec h
    rw [hassoc.dvd_iff_dvd_left, hmul]
    exact dvd_mul_right _ _
  · rw [Poly.squareFreePart, if_pos (by omega)]

theorem divideOut_dvd (p : Poly) (r : Rat) : (divideOut p r).toPolynomial ∣ p.toPolynomial := by
  rw [divideOut]
  cases h : p.divExact? (.x - .const r) with
  | none => exact dvd_rfl
  | some q =>
    rw [Option.getD_some, Poly.eq_mul_of_divExact? h]
    exact dvd_mul_right _ _

theorem foldl_divideOut_dvd (rs : List Rat) (p : Poly) :
    (rs.foldl divideOut p).toPolynomial ∣ p.toPolynomial := by
  induction rs generalizing p with
  | nil => exact dvd_rfl
  | cons r rs ih => exact (ih (divideOut p r)).trans (divideOut_dvd p r)

/-- What is left without the rational roots is a divisor. -/
theorem remaining_dvd (p : Poly) : (remaining p).toPolynomial ∣ p.toPolynomial :=
  (foldl_divideOut_dvd _ _).trans (squareFreePart_dvd p)

theorem size_remaining_le (hp : p.toPolynomial ≠ 0) : (remaining p).size ≤ p.size :=
  size_le_of_dvd hp (remaining_dvd p)

/-- Up to degree two no root is approximated. -/
theorem listed_of_size_le (hp : p.toPolynomial ≠ 0) (h : p.size ≤ 3) :
    listed p = exactRoots p := by
  rw [listed, approximations, if_pos ((size_remaining_le hp).trans h), List.map_nil,
    List.append_nil]

/-- Up to degree two the entries have the real roots as their values. -/
theorem exists_mem_listed_iff (hp : p.toPolynomial ≠ 0) (h : p.size ≤ 3) {b : ℝ} :
    (∃ e ∈ listed p, e.value = b) ↔ p.real.eval b = 0 := by
  have hexact := exact_exactRoots hp
  have hlength := length_listed hp
  rw [listed_of_size_le hp h] at hlength ⊢
  have hvalues : ((exactRoots p).map Expr.value).toFinset = p.realRoots := by
    refine Finset.eq_of_subset_of_card_le (fun a ha => ?_) ?_
    · obtain ⟨e, he, rfl⟩ := List.mem_map.1 (List.mem_toFinset.1 ha)
      exact (Poly.mem_realRoots hp).2 (hexact.isRoot e he)
    · rw [List.toFinset_card_of_nodup hexact.nodup, List.length_map, hlength]
  rw [← Poly.mem_realRoots hp, ← hvalues, List.mem_toFinset, List.mem_map]

/-- The root of a linear polynomial is listed as a constant. -/
theorem exists_const_of_mem_listed (hp : p.toPolynomial ≠ 0) (h : p.size ≤ 2) {e : Expr}
    (he : e ∈ listed p) : ∃ a, e = .const a := by
  have hsize := (size_remaining_le hp).trans h
  rw [listed_of_size_le hp (h.trans (by decide))] at he
  rcases List.mem_append.1 he with he | he
  · obtain ⟨a, -, rfl⟩ := List.mem_map.1 he
    exact ⟨a, rfl⟩
  · rw [if_pos (hsize.trans (by decide)), remainingRoots] at he
    obtain h0 | h1 | h2 : (remaining p).size = 0 ∨ (remaining p).size = 1 ∨
      (remaining p).size = 2 := by omega
    · rw [h0] at he
      cases he
    · rw [h1] at he
      cases he
    · rw [h2] at he
      exact ⟨_, List.mem_singleton.1 he⟩

theorem linear_ne_zero {m : Rat} (hm : m ≠ 0) (k : Rat) : (C m * X + C k : ℚ[X]) ≠ 0 := by
  intro hz
  have hcoeff := congrArg (coeff · 1) hz
  simp [hm] at hcoeff

/-- The roots of a linear polynomial. -/
theorem realRoots_of_linear {m k : Rat} (hm : m ≠ 0) (hp : p.toPolynomial = C m * X + C k) :
    realRoots p = [.const (-k / m)] := by
  have hne : p.toPolynomial ≠ 0 := hp ▸ linear_ne_zero hm k
  have hsize : p.size = 2 := by
    rw [Poly.size_eq hne, hp, natDegree_linear hm]
  have hroot : ∀ a : ℝ, p.real.eval a = 0 ↔ a = ((-k / m : Rat) : ℝ) := by
    intro a
    have hm' : (m : ℝ) ≠ 0 := Rat.cast_ne_zero.2 hm
    rw [Poly.real, hp, Polynomial.map_add, Polynomial.map_mul, map_C, map_X, map_C, eval_add,
      eval_mul, eval_C, eval_X, eval_C, Rat.cast_div, Rat.cast_neg, eq_div_iff hm']
    change (m : ℝ) * a + k = 0 ↔ _
    constructor <;> intro h <;> linarith
  have hcard : p.realRoots = {((-k / m : Rat) : ℝ)} := by
    ext a
    rw [Poly.mem_realRoots hne, hroot, Finset.mem_singleton]
  have hlength := length_listed hne
  rw [hcard, Finset.card_singleton, List.length_eq_one_iff] at hlength
  obtain ⟨e, he⟩ := hlength
  obtain ⟨a, rfl⟩ := exists_const_of_mem_listed hne hsize.le (he ▸ List.mem_singleton_self e)
  have hvalue := (exact_exactRoots hne).isRoot (.const a)
    (listed_of_size_le hne (by omega) ▸ he ▸ List.mem_singleton_self _)
  rw [hroot, Expr.value_const] at hvalue
  have hperm := perm_realRoots hne (he ▸ List.nodup_singleton _)
  rw [he, List.perm_singleton] at hperm
  rw [hperm, Rat.cast_injective hvalue]

end Roots

/-- An equation with a reduced numerator of degree two or less has all its solutions listed
exactly. -/
theorem exists_mem_solve_iff {f : RationalFunction} {left right : Expr} {x : String}
    {roots : List Expr} (hsolve : solve left right x = .ok roots)
    (hf : RationalFunction.ofExpr? x (simplify (.sub left right)) = some f)
    (hne : f.numer.toPolynomial ≠ 0) (hsize : f.numer.size ≤ 3) {b : ℝ} :
    (∃ e ∈ roots, e.value = b) ↔ f.numer.real.eval b = 0 := by
  have hall : ∀ e, e ∈ roots ↔ e ∈ Roots.listed f.numer := by
    intro e
    rw [mem_solve_iff hsolve hf hne, and_iff_left_iff_imp]
    intro he
    rw [Roots.listed_of_size_le hne hsize] at he
    exact allowed_of_mem_exactRoots (RationalFunction.lowest_ofExpr? hf).isCoprime hne he
  simp only [hall]
  exact Roots.exists_mem_listed_iff hne hsize

end MarketAlgebra
