import MarketAlgebra.Proofs.Integral
import MarketAlgebra.Proofs.Number.Nearest
import MarketAlgebra.Proofs.Simplify.Constant

/-!
# Logarithms of constants

The logarithm of a constant other than one is an atom: a simplification does not compute it.  Sums
of multiples of two different atoms are written in the order of the atoms (`simplify_sub_pair`), and
logarithms stand in the order of their arguments (`compare_log`).

Evaluation refuses a logarithm of a constant that is not positive, wherever it stands in a product
with a constant (`evaluate_scaled_log`).
-/

namespace MarketAlgebra

open Binary64 MarketAlgebra.Expr

namespace Simplify

/-- The logarithm of a constant other than one stays as it is. -/
theorem atom_log {q : Rat} (hq : q ≠ 1) : Atom (.call .log (.const q)) where
  constant := rfl
  isSum := rfl
  termCount := rfl
  terms := rfl
  neg := rfl
  factors := rfl
  split := rfl
  collectPowers := collectPowers_of_addFactors rfl rfl
  step := by
    have hone : ¬(Expr.const q).isOne = true := by simp [hq]
    exact if_neg hone

variable {u w : Expr} {m n : Rat}

/-! ## Two atoms -/

/-- A multiple of an atom over a constant. -/
theorem div_atom_const (h : Atom u) {k : Rat} (hk : k ≠ 0) :
    div u (.const k) = affine u (1 / k) 0 := by
  have hone : u ≠ one := by
    rintro rfl
    exact absurd h.isOne (by decide)
  have hproduct : mul (.const (1 / k)) u = affine u (1 / k) 0 := by
    have hmul := mul_const_affine h (1 / k) 1 0
    rwa [affine_one h, mul_one, mul_zero] at hmul
  rw [div, h.constant]
  simp only [h.isZero, split, h.split, if_neg hk, if_neg hone]
  by_cases h1 : k = 1
  · simp [h1, affine_one h]
  · rw [← hproduct]
    simp [h1, one]

theorem ne_of_compare (hlt : u.compare w = .lt) (hgt : w.compare u = .gt) : u ≠ w := by
  rintro rfl
  rw [hlt] at hgt
  cases hgt

/-- The table of two multiples of different atoms. -/
theorem coefficients_pair (hu : Atom u) (hw : Atom w) (hne : u ≠ w) (hm : m ≠ 0) (hn : n ≠ 0)
    {s t : Expr} (hs : split s = (m, u)) (ht : split t = (n, w)) :
    coefficients [s, t] = [([u], m), ([w], n)] := by
  have hkey {v : Expr} (h : Atom v) : Expr.sort (factors (collectPowers v)) = [v] := by
    rw [h.collectPowers, h.factors, sort_singleton]
  simp [coefficients, addTerm, hs, ht, hkey hu, hkey hw, hm, hn, addCoefficient, hne]

section

variable (hu : Atom u) (hw : Atom w) (hm : m ≠ 0) (hn : n ≠ 0)
  (hlt : u.compare w = .lt) (hgt : w.compare u = .gt)

include hu hw hm hn hlt hgt

/-- Two multiples of atoms are written in the order of the atoms, whatever their order in the
table. -/
theorem ofCoefficients_pair :
    ofCoefficients [([u], m), ([w], n)] = .add (scaled m u) (scaled n w) ∧
      ofCoefficients [([w], n), ([u], m)] = .add (scaled m u) (scaled n w) := by
  have h1 : (compareLists [u] [w]).isLE = true := by simp [compareLists, hlt]
  have h2 : (compareLists [w] [u]).isLE = false := by simp [compareLists, hgt]
  constructor
  · simp [ofCoefficients, hm, hn, List.mergeSort, List.MergeSort.Internal.splitInTwo, h1,
      hu.product, hw.product, sum, List.lookup]
  · simp [ofCoefficients, hm, hn, List.mergeSort, List.MergeSort.Internal.splitInTwo, h2,
      hu.product, hw.product, sum, List.lookup]

/-- Multiples of different atoms that stand in order are not changed by a pass. -/
theorem step_pair : step (.add (scaled m u) (scaled n w)) = .add (scaled m u) (scaled n w) := by
  have hne := ne_of_compare hlt hgt
  obtain ⟨s, hs, hsplit⟩ := hu.base.terms_scaled hm
  obtain ⟨t, ht, htsplit⟩ := hw.base.terms_scaled hn
  rw [step, step_scaled hu hm, step_scaled hw hn, add, hs, ht]
  change ofCoefficients (coefficients [s, t]) = _
  rw [coefficients_pair hu hw hne hm hn hsplit htsplit, (ofCoefficients_pair hu hw hm hn hlt hgt).1]

/-- The difference of multiples of different atoms, written in the order of the atoms. -/
theorem simplify_sub_pair :
    simplify (.sub (scaled m u) (scaled n w)) = .add (scaled m u) (scaled (-n) w) ∧
      simplify (.sub (scaled n w) (scaled m u)) = .add (scaled (-m) u) (scaled n w) := by
  have hne := ne_of_compare hlt hgt
  have hm' := neg_ne_zero.2 hm
  have hn' := neg_ne_zero.2 hn
  constructor
  · obtain ⟨s, hs, hsplit⟩ := hu.base.terms_scaled hm
    obtain ⟨t, ht, htsplit⟩ := hw.base.terms_neg_scaled hn
    refine simplify_eq_of_step ?_ (step_pair hu hw hm hn' hlt hgt)
    rw [step, step_scaled hu hm, step_scaled hw hn, sub, add, hs, ht]
    change ofCoefficients (coefficients [s, t]) = _
    rw [coefficients_pair hu hw hne hm hn' hsplit htsplit,
      (ofCoefficients_pair hu hw hm hn' hlt hgt).1]
  · obtain ⟨s, hs, hsplit⟩ := hu.base.terms_neg_scaled hm
    obtain ⟨t, ht, htsplit⟩ := hw.base.terms_scaled hn
    refine simplify_eq_of_step ?_ (step_pair hu hw hm' hn hlt hgt)
    rw [step, step_scaled hu hm, step_scaled hw hn, sub, add, hs, ht]
    change ofCoefficients (coefficients [t, s]) = _
    rw [coefficients_pair hw hu hne.symm hn hm' htsplit hsplit,
      (ofCoefficients_pair hu hw hm' hn hlt hgt).2]

end

/-- Logarithms stand in the order of their arguments. -/
theorem compare_log {p q : Rat} (h : p < q) :
    (Expr.call .log (.const p)).compare (.call .log (.const q)) = .lt ∧
      (Expr.call .log (.const q)).compare (.call .log (.const p)) = .gt := by
  constructor
  · simp [Expr.compare, compareRats, h]
  · simp [Expr.compare, compareRats, h.not_gt, h.ne']

end Simplify

/-! ## Evaluation -/

/-- A logarithm of a constant that is not positive is refused. -/
theorem evaluate_log_of_nonpos {q : Rat} (hq : q ≤ 0) (hfinite : (ofRat q).isFinite = true) :
    (Expr.call .log (.const q)).evaluate =
      .error (.nonPositiveLog (ofRat q) (.call .log (.const q))) := by
  have hzero : (0 : Float) = ofRat 0 := rfl
  have hle : ofRat q ≤ 0 := by
    rw [hzero]
    exact ofRat_le_ofRat hq
  have hconst : (Expr.const q).evaluate = .ok (ofRat q) :=
    evaluate_const_eq_ok_iff.2 ⟨hfinite, rfl⟩
  simp only [evaluate, evalIn] at hconst ⊢
  rw [hconst]
  simp only [bind, Except.bind, if_pos hle]

/-- It is refused with any coefficient. -/
theorem evaluate_scaled_log {m q : Rat} (hm : m ≠ 0) (hfinite : (ofRat m).isFinite = true)
    (hq : q ≤ 0) (hqfinite : (ofRat q).isFinite = true) :
    (Simplify.scaled m (.call .log (.const q))).evaluate =
      .error (.nonPositiveLog (ofRat q) (.call .log (.const q))) := by
  have hlog := evaluate_log_of_nonpos hq hqfinite
  have hone : q ≠ 1 := by
    rintro rfl
    exact absurd hq (by norm_num)
  rw [evaluate] at hlog ⊢
  rcases (Simplify.atom_log hone).base.scaled_cases hm with ⟨-, hs⟩ | ⟨-, hs⟩ | ⟨-, -, hs⟩ <;>
    rw [hs]
  · exact hlog
  · rw [evalIn, hlog]
    rfl
  · have hconst : (Expr.const m).evalIn (fun _ => none) = .ok (ofRat m) :=
      evaluate_const_eq_ok_iff.2 ⟨hfinite, rfl⟩
    rw [evalIn, hconst, hlog]
    rfl

end MarketAlgebra
