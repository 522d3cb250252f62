import Mathlib.Algebra.MvPolynomial.CommRing
import MarketAlgebra.Proofs.Simplify.Monomial

/-!
# Collecting the terms of a polynomial

A sum is added up in a table of coefficients.  When its terms are monomials with coefficients
(`TermsOf`), the table has the coefficients of their polynomial, each in the row of the key of its
monomial (`Tabulates`): no two monomials share a key, and a term always finds the row of its own.

The order in which the rows came into the table is lost when they are sorted, since two rows have
different keys.  So a table is written in one way that only depends on the polynomial (`written`,
`Tabulates.ofCoefficients_eq`): its monomials stand in the order of their keys, and the constant
comes last.
-/

namespace MarketAlgebra.Simplify

open MarketAlgebra.Expr MvPolynomial

variable {t x y e : Expr} {ts us : List Expr} {c d : Rat} {m n : String →₀ ℕ}
  {P Q : MvPolynomial String ℚ}

/-! ## Lists of terms -/

/-- The terms are monomials with coefficients, and they add up to a polynomial. -/
inductive TermsOf : List Expr → MvPolynomial String ℚ → Prop
  | nil : TermsOf [] 0
  | cons {t : Expr} {c : Rat} {m : String →₀ ℕ} {ts : List Expr} {P : MvPolynomial String ℚ}
      (ht : split t = (c, spelling m)) (hts : TermsOf ts P) :
      TermsOf (t :: ts) (monomial m c + P)

namespace TermsOf

theorem singleton (ht : split t = (c, spelling m)) : TermsOf [t] (monomial m c) := by
  rw [← add_zero (monomial m c)]
  exact .cons ht .nil

theorem append (hts : TermsOf ts P) (hus : TermsOf us Q) : TermsOf (ts ++ us) (P + Q) := by
  induction hts with
  | nil => rwa [zero_add]
  | cons ht _ ih =>
    rw [add_assoc]
    exact .cons ht ih

theorem neg (hts : TermsOf ts P) : TermsOf (ts.map Simplify.neg) (-P) := by
  induction hts with
  | nil =>
    rw [neg_zero]
    exact .nil
  | cons ht _ ih =>
    rw [neg_add, ← map_neg]
    exact .cons (split_neg ht) ih

end TermsOf

/-! ## Tables of coefficients -/

/-- The table has the coefficients of a polynomial, for the keys of its monomials. -/
abbrev Tabulates (table : Coefficients) (P : MvPolynomial String ℚ) : Prop :=
  Records key table fun m => P.coeff m

theorem tabulates_nil : Tabulates [] 0 := .nil key

namespace Tabulates

variable {table : Coefficients}

theorem addCoefficient (h : Tabulates table P) (m : String →₀ ℕ) (c : Rat) :
    Tabulates (addCoefficient (key m) c table) (P + monomial m c) := by
  have hadd := h.addEntry key_injective m c
  rw [← addCoefficient_eq_addEntry] at hadd
  convert hadd using 2 with n
  rw [coeff_add, coeff_monomial]
  simp only [eq_comm]

/-- A term is added to the row of its key. -/
theorem addTerm (h : Tabulates table P) (ht : split t = (c, spelling m)) :
    Tabulates (addTerm table t) (P + monomial m c) := by
  have hkey : Expr.sort (factors (collectPowers (spelling m))) = key m := by
    rw [collectPowers_spelling, factors_spelling, sort_key]
  rw [Simplify.addTerm, ht]
  simp only [hkey]
  split
  next hc => rwa [hc, map_zero, add_zero]
  next => exact h.addCoefficient m c

theorem foldl_addTerm (h : Tabulates table P) (hts : TermsOf ts Q) :
    Tabulates (ts.foldl Simplify.addTerm table) (P + Q) := by
  induction hts generalizing table P with
  | nil => rwa [add_zero]
  | cons ht _ ih =>
    rw [← add_assoc]
    exact ih (h.addTerm ht)

/-- A table determines the polynomial. -/
theorem unique (hP : Tabulates table P) (hQ : Tabulates table Q) : P = Q := by
  ext m
  rw [← hP.total, hQ.total]

end Tabulates

theorem tabulates_coefficients (hts : TermsOf ts P) : Tabulates (coefficients ts) P := by
  rw [← zero_add P]
  exact tabulates_nil.foldl_addTerm hts

/-! ## Written polynomials -/

/-- The monomials of a polynomial in the order of their keys, without the constant one. -/
noncomputable def properMonomials (P : MvPolynomial String ℚ) : List (String →₀ ℕ) :=
  (P.support.toList.filter (· ≠ 0)).mergeSort fun m n => (compareLists (key m) (key n)).isLE

/-- The monomials of a polynomial in the order in which they are written. -/
noncomputable def monomials (P : MvPolynomial String ℚ) : List (String →₀ ℕ) :=
  properMonomials P ++ if P.coeff 0 = 0 then [] else [0]

/-- The polynomial as the simplifier writes it. -/
noncomputable def written (P : MvPolynomial String ℚ) : Expr :=
  sum ((monomials P).map fun m => term (P.coeff m) m)

/-- Whether a row does not come after another one. -/
def rowNotAfter (r s : List Expr × Rat) : Bool := (compareLists r.1 s.1).isLE

theorem pairwise_mergeSort_rows (rows : Coefficients) :
    (rows.mergeSort rowNotAfter).Pairwise fun r s => rowNotAfter r s = true := by
  refine List.pairwise_mergeSort (fun r s t hrs hst => ?_) (fun r s => ?_) rows
  · exact Std.TransCmp.isLE_trans hrs hst
  · rw [rowNotAfter, rowNotAfter, @Std.OrientedCmp.eq_swap _ compareLists _ s.1, Ordering.isLE_swap]
    cases compareLists r.1 s.1 <;> rfl

namespace Tabulates

variable {table : Coefficients}

/-- The rows that become terms with factors are those of the monomials but the constant one. -/
theorem properRows_perm (h : Tabulates table P) :
    (properRows table).Perm
      ((P.support.toList.filter (· ≠ 0)).map fun m => (key m, P.coeff m)) := by
  refine h.filter_perm key_injective (fun row hrow => ?_) ((Finset.nodup_toList _).filter _)
    fun m => ?_
  · rw [Bool.and_eq_true, bne_iff_ne] at hrow
    exact hrow.2
  · have hempty : (key m).isEmpty = false ↔ m ≠ 0 := by
      rw [List.isEmpty_eq_false_iff, ← key_zero, key_injective.ne_iff]
    rw [List.mem_filter, Finset.mem_toList, mem_support_iff, decide_eq_true_iff, Bool.and_eq_true,
      bne_iff_ne, Bool.not_eq_true', hempty, and_comm]

/-- The rows are sorted as the monomials are. -/
theorem mergeSort_properRows (h : Tabulates table P) :
    (properRows table).mergeSort rowNotAfter =
      (properMonomials P).map fun m => (key m, P.coeff m) := by
  have hmap : ((properMonomials P).map fun m => (key m, P.coeff m)) =
      ((P.support.toList.filter (· ≠ 0)).map fun m => (key m, P.coeff m)).mergeSort rowNotAfter :=
    List.map_mergeSort fun _ _ _ _ => rfl
  rw [hmap]
  refine (((List.mergeSort_perm _ _).trans h.properRows_perm).trans
    (List.mergeSort_perm _ _).symm).eq_of_pairwise ?_ (pairwise_mergeSort_rows _)
      (pairwise_mergeSort_rows _)
  intro r s hr hs hrs hsr
  have hkey : r.1 = s.1 := Std.LawfulEqCmp.eq_of_compare (Std.OrientedCmp.isLE_antisymm hrs hsr)
  obtain ⟨m, -, rfl⟩ := List.mem_map.1 (h.properRows_perm.mem_iff.1 (List.mem_mergeSort.1 hr))
  obtain ⟨n, -, rfl⟩ := List.mem_map.1 (List.mem_mergeSort.1 hs)
  rw [key_injective hkey]

/-- A table is written as the polynomial that it tabulates. -/
theorem ofCoefficients_eq (h : Tabulates table P) : ofCoefficients table = written P := by
  have hconstant : constantTerm table = P.coeff 0 := by
    rw [← h.total, key_zero]
    rfl
  have heq : ofCoefficients table = sum (if constantTerm table = 0
      then ((properRows table).mergeSort rowNotAfter).map rowTerm
      else ((properRows table).mergeSort rowNotAfter).map rowTerm ++
        [.const (constantTerm table)]) := rfl
  have hterm : (rowTerm ∘ fun m => (key m, P.coeff m)) = fun m => term (P.coeff m) m := by
    funext m
    rw [Function.comp, rowTerm, product_key, term]
  rw [heq, hconstant, h.mergeSort_properRows, List.map_map, hterm, written, monomials,
    List.map_append]
  split
  next => rw [List.map_nil, List.append_nil]
  next => rw [List.map_singleton, term_zero_right]

end Tabulates

end MarketAlgebra.Simplify
