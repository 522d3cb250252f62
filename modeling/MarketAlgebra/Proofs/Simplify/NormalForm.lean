import MarketAlgebra.Proofs.Simplify.Collection

/-!
# The normal form of polynomials

A written polynomial is a sum of terms from left to right (`Spelt`), and adding, subtracting and
multiplying two of them writes the sum, the difference and the product of the polynomials
(`add_written`, `sub_written`, `mul_written`).  A product is only multiplied out when it has few
terms, so an expression has to be small as well: `Expr.expandedTerms` counts the terms that
multiplying out may give, before any of them are collected.

Then a pass over an expression that stands for a polynomial writes that polynomial
(`Expr.IsPolynomial.step`).  Since a polynomial is determined by how it is written
(`written_injective`), two such expressions are simplified to the same one exactly when they stand
for the same polynomial (`simplification_is_normal_form`).
-/

namespace MarketAlgebra

open MvPolynomial

namespace Simplify

open MarketAlgebra.Expr

variable {x y e : Expr} {c d : Rat} {m n : String →₀ ℕ} {P Q : MvPolynomial String ℚ}

/-! ## Sums of terms -/

/-- A sum of terms from left to right. -/
inductive Spelt : Expr → MvPolynomial String ℚ → Prop
  | term (c : Rat) (m : String →₀ ℕ) : Spelt (term c m) (monomial m c)
  | add {e : Expr} {P : MvPolynomial String ℚ} (he : Spelt e P) (c : Rat) (m : String →₀ ℕ) :
      Spelt (.add e (term c m)) (P + monomial m c)

theorem spelt_foldl (he : Spelt e P) (f : (String →₀ ℕ) → ℚ) (ms : List (String →₀ ℕ)) :
    Spelt ((ms.map fun m => term (f m) m).foldl .add e)
      (P + (ms.map fun m => monomial m (f m)).sum) := by
  induction ms generalizing e P with
  | nil => rwa [List.map_nil, List.map_nil, List.sum_nil, add_zero]
  | cons m ms ih =>
    rw [List.map_cons, List.map_cons, List.sum_cons, ← add_assoc]
    exact ih (he.add (f m) m)

theorem spelt_sum (f : (String →₀ ℕ) → ℚ) (ms : List (String →₀ ℕ)) :
    Spelt (sum (ms.map fun m => term (f m) m)) (ms.map fun m => monomial m (f m)).sum := by
  cases ms with
  | nil =>
    have h := Spelt.term 0 0
    rwa [map_zero, term_zero_left] at h
  | cons m ms => exact spelt_foldl (.term (f m) m) f ms

theorem mem_monomials : m ∈ monomials P ↔ m ∈ P.support := by
  rw [monomials, properMonomials, List.mem_append, List.mem_mergeSort, List.mem_filter,
    Finset.mem_toList, decide_eq_true_iff, mem_support_iff]
  rcases eq_or_ne m 0 with rfl | hm
  · split <;> simp_all
  · split <;> simp_all

theorem nodup_monomials (P : MvPolynomial String ℚ) : (monomials P).Nodup := by
  have hproper : (properMonomials P).Nodup :=
    (List.mergeSort_perm _ _).nodup_iff.2 ((Finset.nodup_toList _).filter _)
  rw [monomials]
  split
  next => rwa [List.append_nil]
  next =>
    refine hproper.append (List.nodup_singleton 0) (List.disjoint_singleton.2 fun h => ?_)
    rw [properMonomials, List.mem_mergeSort, List.mem_filter, decide_eq_true_iff] at h
    exact h.2 rfl

theorem monomials_perm (P : MvPolynomial String ℚ) : (monomials P).Perm P.support.toList :=
  (List.perm_ext_iff_of_nodup (nodup_monomials P) (Finset.nodup_toList _)).2 fun _ => by
    rw [mem_monomials, Finset.mem_toList]

/-- A written polynomial is the sum of its terms. -/
theorem spelt_written (P : MvPolynomial String ℚ) : Spelt (written P) P := by
  have h := spelt_sum P.coeff (monomials P)
  rwa [((monomials_perm P).map _).sum_eq, Finset.sum_map_toList,
    support_sum_monomial_coeff P] at h

/-- A single term is written as it is. -/
theorem written_monomial (m : String →₀ ℕ) (c : Rat) : written (monomial m c) = term c m := by
  have hperm := monomials_perm (monomial m c)
  rcases eq_or_ne c 0 with rfl | hc
  · rw [map_zero, support_zero, Finset.toList_empty, List.perm_nil] at hperm
    rw [written, map_zero, hperm, term_zero_left]
    rfl
  · rw [support_monomial, if_neg hc, Finset.toList_singleton, List.perm_singleton] at hperm
    rw [written, hperm, List.map_singleton, coeff_monomial, if_pos rfl]
    rfl

theorem termCount_foldl (f : (String →₀ ℕ) → ℚ) (ms : List (String →₀ ℕ)) :
    termCount ((ms.map fun m => term (f m) m).foldl .add e) = termCount e + ms.length := by
  induction ms generalizing e with
  | nil => rfl
  | cons m ms ih =>
    rw [List.map_cons, List.foldl_cons, ih, termCount, (isSum_term (f m) m).2, List.length_cons]
    omega

/-- The zero polynomial is written as one term, too. -/
theorem termCount_written (P : MvPolynomial String ℚ) :
    termCount (written P) = max 1 P.support.card := by
  rw [← Finset.length_toList, ← (monomials_perm P).length_eq, written]
  cases monomials P with
  | nil => rfl
  | cons m ms =>
    rw [List.map_cons, sum, termCount_foldl, (isSum_term _ m).2, List.length_cons]
    omega

theorem termsOf_const (c : Rat) (h : c = 0 ∨ m = 0) : TermsOf [.const c] (monomial m c) := by
  have hconst : TermsOf [.const c] (monomial 0 c) := .singleton (by rw [spelling_zero, split])
  rcases h with rfl | rfl
  · rwa [map_zero] at hconst ⊢
  · exact hconst

theorem termsOf_term (c : Rat) (m : String →₀ ℕ) : TermsOf (terms (term c m)) (monomial m c) := by
  rcases term_cases c m with ⟨hconst, h⟩ | ⟨hc, hm⟩
  · rw [h]
    exact termsOf_const c hconst
  · obtain ⟨t, ht, hsplit⟩ := (base_spelling hm).terms_scaled hc
    rw [term, ht]
    exact .singleton hsplit

theorem termsOf_neg_term (c : Rat) (m : String →₀ ℕ) :
    TermsOf (terms (neg (term c m))) (-monomial m c) := by
  rw [← map_neg]
  rcases term_cases c m with ⟨hconst, h⟩ | ⟨hc, hm⟩
  · rw [h]
    exact termsOf_const (-c) (hconst.imp_left neg_eq_zero.2)
  · obtain ⟨t, ht, hsplit⟩ := (base_spelling hm).terms_neg_scaled hc
    rw [term, ht]
    exact .singleton hsplit

/-- The terms of a spelt-out polynomial. -/
theorem Spelt.termsOf (h : Spelt e P) : TermsOf (terms e) P := by
  induction h with
  | term c m => exact termsOf_term c m
  | add _ c m ih => exact ih.append (termsOf_term c m)

theorem Spelt.termsOf_neg (h : Spelt e P) : TermsOf (terms (Simplify.neg e)) (-P) := by
  cases h with
  | term c m => exact termsOf_neg_term c m
  | add he c m => exact (he.add c m).termsOf.neg

/-! ## Operations on written polynomials -/

theorem add_eq_written (hx : TermsOf (terms x) P) (hy : TermsOf (terms y) Q) :
    add x y = written (P + Q) :=
  (tabulates_coefficients (hx.append hy)).ofCoefficients_eq

theorem add_written (P Q : MvPolynomial String ℚ) :
    add (written P) (written Q) = written (P + Q) :=
  add_eq_written (spelt_written P).termsOf (spelt_written Q).termsOf

theorem sub_written (P Q : MvPolynomial String ℚ) :
    sub (written P) (written Q) = written (P - Q) := by
  rw [sub, sub_eq_add_neg]
  exact add_eq_written (spelt_written P).termsOf (spelt_written Q).termsOf_neg

theorem Spelt.distributeRight (hy : Spelt y Q) (c : Rat) (m : String →₀ ℕ) :
    Simplify.distributeRight (Simplify.term c m) y = written (monomial m c * Q) := by
  induction hy with
  | term d n =>
    rw [distributeRight_of_not_isSum _ (isSum_term d n).1, mulFactors_term, monomial_mul,
      written_monomial]
  | add _ d n ih =>
    rw [Simplify.distributeRight, ih, distributeRight_of_not_isSum _ (isSum_term d n).1,
      mulFactors_term, ← written_monomial, ← monomial_mul, add_written, mul_add]

theorem Spelt.distribute (hx : Spelt x P) (hy : Spelt y Q) :
    Simplify.distribute y x = written (P * Q) := by
  induction hx with
  | term c m => rw [distribute_of_not_isSum _ (isSum_term c m).1, hy.distributeRight]
  | add _ c m ih =>
    rw [Simplify.distribute, ih, distribute_of_not_isSum _ (isSum_term c m).1, hy.distributeRight,
      add_written, add_mul]

theorem mul_written
    (h : termCount (written P) * termCount (written Q) ≤ distributionLimit) :
    mul (written P) (written Q) = written (P * Q) := by
  rw [mul_eq_distribute h, (spelt_written P).distribute (spelt_written Q)]

/-- A pass writes a spelt-out polynomial. -/
theorem Spelt.step (h : Spelt e P) : Simplify.step e = written P := by
  induction h with
  | term c m => rw [step_term, written_monomial]
  | add _ c m ih => rw [Simplify.step, ih, step_term, ← written_monomial, add_written]

/-- A power of a variable is a term. -/
theorem powConstant_var (z : String) (k : ℕ) : powConstant (.var z) k = term 1 (.single z k) := by
  rw [term_one_left]
  rcases eq_or_ne k 0 with rfl | hk
  · rw [Finsupp.single_zero, spelling_zero]
    rfl
  · have hzero : (k : Rat) ≠ 0 := Nat.cast_ne_zero.2 hk
    simp only [spelling_single hk, powConstant, if_neg hzero, power]

theorem step_written (P : MvPolynomial String ℚ) : step (written P) = written P :=
  (spelt_written P).step

theorem written_injective : Function.Injective written := by
  intro P Q h
  have hP := tabulates_coefficients (spelt_written P).termsOf
  rw [h] at hP
  exact hP.unique (tabulates_coefficients (spelt_written Q).termsOf)

end Simplify

/-! ## Polynomial expressions -/

namespace Expr

/-- How an expression that is built from variables, constants, sums, differences, products and
powers of variables with natural exponents stands for a polynomial. -/
inductive IsPolynomial : Expr → MvPolynomial String ℚ → Prop
  | var (x : String) : IsPolynomial (.var x) (X x)
  | const (c : Rat) : IsPolynomial (.const c) (C c)
  | pow (x : String) (k : ℕ) : IsPolynomial (.pow (.var x) (.const k)) (X x ^ k)
  | add {a b : Expr} {P Q : MvPolynomial String ℚ} :
      IsPolynomial a P → IsPolynomial b Q → IsPolynomial (.add a b) (P + Q)
  | sub {a b : Expr} {P Q : MvPolynomial String ℚ} :
      IsPolynomial a P → IsPolynomial b Q → IsPolynomial (.sub a b) (P - Q)
  | mul {a b : Expr} {P Q : MvPolynomial String ℚ} :
      IsPolynomial a P → IsPolynomial b Q → IsPolynomial (.mul a b) (P * Q)

/-- The number of terms that multiplying out may give. -/
def expandedTerms : Expr → ℕ
  | .add a b | .sub a b => a.expandedTerms + b.expandedTerms
  | .mul a b => a.expandedTerms * b.expandedTerms
  | _ => 1

/-- No part of the expression may give more than `n` terms. -/
def TermsWithin (n : ℕ) : Expr → Prop
  | .add a b => (Expr.add a b).expandedTerms ≤ n ∧ a.TermsWithin n ∧ b.TermsWithin n
  | .sub a b => (Expr.sub a b).expandedTerms ≤ n ∧ a.TermsWithin n ∧ b.TermsWithin n
  | .mul a b => (Expr.mul a b).expandedTerms ≤ n ∧ a.TermsWithin n ∧ b.TermsWithin n
  | e => e.expandedTerms ≤ n

variable {d e : Expr} {P Q : MvPolynomial String ℚ}

theorem expandedTerms_pos (e : Expr) : 0 < e.expandedTerms := by
  induction e with
  | add a b iha ihb | sub a b iha ihb => exact Nat.add_pos_left iha _
  | mul a b iha ihb => exact Nat.mul_pos iha ihb
  | _ => exact Nat.one_pos

/-- A polynomial has no more terms than multiplying out may give. -/
theorem IsPolynomial.card_support_le (h : e.IsPolynomial P) : P.support.card ≤ e.expandedTerms := by
  induction h with
  | var x => exact Finset.card_le_card support_monomial_subset
  | const c => exact Finset.card_le_card support_monomial_subset
  | pow x k =>
    rw [X_pow_eq_monomial]
    exact Finset.card_le_card support_monomial_subset
  | add _ _ iha ihb =>
    exact (Finset.card_le_card support_add).trans
      ((Finset.card_union_le _ _).trans (Nat.add_le_add iha ihb))
  | sub _ _ iha ihb =>
    exact (Finset.card_le_card (support_sub _ _ _)).trans
      ((Finset.card_union_le _ _).trans (Nat.add_le_add iha ihb))
  | mul _ _ iha ihb =>
    exact (Finset.card_le_card (support_mul _ _)).trans
      (Finset.card_add_le.trans (Nat.mul_le_mul iha ihb))

theorem IsPolynomial.termCount_written_le (h : e.IsPolynomial P) :
    Simplify.termCount (Simplify.written P) ≤ e.expandedTerms := by
  rw [Simplify.termCount_written]
  exact max_le e.expandedTerms_pos h.card_support_le

/-- A pass writes the polynomial. -/
theorem IsPolynomial.step (h : e.IsPolynomial P) (hn : e.TermsWithin Simplify.distributionLimit) :
    Simplify.step e = Simplify.written P := by
  induction h with
  | var x =>
    rw [X, Simplify.written_monomial, Simplify.term_one_left, Simplify.spelling_single one_ne_zero,
      Simplify.power, if_pos Nat.cast_one, Simplify.step]
  | const c => rw [C_apply, Simplify.written_monomial, Simplify.term_zero_right, Simplify.step]
  | pow x k =>
    rw [X_pow_eq_monomial, Simplify.written_monomial, Simplify.step, Simplify.step, Simplify.step]
    exact Simplify.powConstant_var x k
  | add _ _ iha ihb => rw [Simplify.step, iha hn.2.1, ihb hn.2.2, Simplify.add_written]
  | sub _ _ iha ihb => rw [Simplify.step, iha hn.2.1, ihb hn.2.2, Simplify.sub_written]
  | mul ha hb iha ihb =>
    have hcount := Nat.mul_le_mul ha.termCount_written_le hb.termCount_written_le
    rw [Simplify.step, iha hn.2.1, ihb hn.2.2, Simplify.mul_written (hcount.trans hn.1)]

end Expr

/-- Two polynomial expressions that are not too large to be multiplied out are simplified to the
same expression exactly when they stand for the same polynomial.  One pass suffices for that. -/
theorem simplification_is_normal_form {d e : Expr} {P Q : MvPolynomial String ℚ}
    (hd : d.IsPolynomial P) (he : e.IsPolynomial Q)
    (hd' : d.TermsWithin Simplify.distributionLimit)
    (he' : e.TermsWithin Simplify.distributionLimit) :
    (simplifyOnce d = simplifyOnce e ↔ P = Q) ∧
      simplifyOnce (simplifyOnce e) = simplifyOnce e ∧ simplify e = simplifyOnce e := by
  have hwritten := Simplify.step_written Q
  simp only [simplifyOnce_eq_step, hd.step hd', he.step he', Simplify.written_injective.eq_iff,
    hwritten, true_and]
  exact simplify_eq_of_step (he.step he') hwritten

/-- The product `(Q + P) * (Q - P)` and the difference `Q ^ 2 - P * P` are simplified to the same
expression. -/
theorem simplification_is_normal_form_of_squares :
    let d : Expr := .mul (.add (.var "Q") (.var "P")) (.sub (.var "Q") (.var "P"))
    let e : Expr := .sub (.pow (.var "Q") (.const (2 : ℕ))) (.mul (.var "P") (.var "P"))
    d.IsPolynomial ((X "Q" + X "P") * (X "Q" - X "P")) ∧
      e.IsPolynomial (X "Q" ^ 2 - X "P" * X "P") ∧
      d.TermsWithin Simplify.distributionLimit ∧ e.TermsWithin Simplify.distributionLimit ∧
      simplifyOnce d = simplifyOnce e ∧ simplifyOnce (simplifyOnce e) = simplifyOnce e ∧
      simplify e = simplifyOnce e := by
  intro d e
  have hd : d.IsPolynomial ((X "Q" + X "P") * (X "Q" - X "P")) :=
    .mul (.add (.var _) (.var _)) (.sub (.var _) (.var _))
  have he : e.IsPolynomial (X "Q" ^ 2 - X "P" * X "P") :=
    .sub (.pow _ 2) (.mul (.var _) (.var _))
  have hd' : d.TermsWithin Simplify.distributionLimit := by
    simp [d, Expr.TermsWithin, Expr.expandedTerms, Simplify.distributionLimit]
  have he' : e.TermsWithin Simplify.distributionLimit := by
    simp [e, Expr.TermsWithin, Expr.expandedTerms, Simplify.distributionLimit]
  obtain ⟨hsame, hpass⟩ := simplification_is_normal_form hd he hd' he'
  exact ⟨hd, he, hd', he', hsame.2 (by ring), hpass⟩

end MarketAlgebra
