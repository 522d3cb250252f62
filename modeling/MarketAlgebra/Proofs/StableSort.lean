import Mathlib
import MarketAlgebra.Proofs.Repetitions

/-!
# Sorting by a key that stands for a value

A list is sorted by a key of its entries.  The sort is stable: entries with the same key stay in the
order in which they were found (`pair_sublist_of_sortByKey`).  So the sorted list ascends by value
exactly when for each two entries the keys are ordered as the values are, or are equal and the
entry with the smaller value was found first (`pairwise_sortByKey_iff`).

When entries with equal values are equal, the list without repetitions then ascends strictly, and
only then (`pairwise_eraseReps_iff`).
-/

namespace MarketAlgebra

section

variable {α κ β : Type*} [LinearOrder κ] [LinearOrder β] {key : α → κ} {value : α → β}
  {as : List α} {a b : α}

/-! ## Pairs of entries -/

theorem pair_sublist (ha : a ∈ as) (hb : b ∈ as) (hab : a ≠ b) :
    [a, b].Sublist as ∨ [b, a].Sublist as := by
  induction as with
  | nil => cases ha
  | cons c as ih =>
    cases ha with
    | head =>
      cases hb with
      | head => exact absurd rfl hab
      | tail _ hb => exact .inl (.cons_cons _ (List.singleton_sublist.2 hb))
    | tail _ ha =>
      cases hb with
      | head => exact .inr (.cons_cons _ (List.singleton_sublist.2 ha))
      | tail _ hb => exact (ih ha hb).imp (.cons c) (.cons c)

/-- The first of two entries comes before the second one when both are sorted by their keys, exactly
when it has the smaller value. -/
def InOrder (key : α → κ) (value : α → β) (a b : α) : Prop :=
  (value a < value b → key a ≤ key b) ∧ (value b < value a → key b < key a)

/-! ## Sorted lists -/

/-- The list sorted by a key. -/
def sortByKey (key : α → κ) (as : List α) : List α := as.mergeSort fun a b => key a ≤ key b

theorem mem_sortByKey (key : α → κ) : a ∈ sortByKey key as ↔ a ∈ as :=
  (List.mergeSort_perm as _).mem_iff

theorem key_trans (a b c : α) (hab : decide (key a ≤ key b) = true)
    (hbc : decide (key b ≤ key c) = true) : decide (key a ≤ key c) = true :=
  decide_eq_true ((of_decide_eq_true hab).trans (of_decide_eq_true hbc))

theorem key_total (a b : α) : (decide (key a ≤ key b) || decide (key b ≤ key a)) = true := by
  rw [Bool.or_eq_true, decide_eq_true_eq, decide_eq_true_eq]
  exact le_total (key a) (key b)

theorem pairwise_sortByKey (key : α → κ) (as : List α) :
    (sortByKey key as).Pairwise (key · ≤ key ·) :=
  (List.pairwise_mergeSort key_trans key_total as).imp of_decide_eq_true

theorem key_le_of_sublist (h : [a, b].Sublist (sortByKey key as)) : key a ≤ key b :=
  List.pairwise_iff_forall_sublist.1 (pairwise_sortByKey key as) h

/-- Entries whose keys are in order keep their order. -/
theorem sublist_sortByKey {bs : List α} (hsorted : bs.Pairwise (key · ≤ key ·))
    (h : bs.Sublist as) : bs.Sublist (sortByKey key as) :=
  List.sublist_mergeSort key_trans key_total (hsorted.imp decide_eq_true) h

/-- All entries with one key, in the order in which they were found. -/
theorem filter_sortByKey (key : α → κ) (as : List α) (k : κ) :
    (sortByKey key as).filter (key · = k) = as.filter (key · = k) := by
  have hsorted : (as.filter (key · = k)).Pairwise (key · ≤ key ·) := by
    rw [List.pairwise_iff_forall_sublist]
    intro a b hab
    have ha := of_decide_eq_true (List.mem_filter.1 (hab.subset (by simp : a ∈ [a, b]))).2
    have hb := of_decide_eq_true (List.mem_filter.1 (hab.subset (by simp : b ∈ [a, b]))).2
    exact (ha.trans hb.symm).le
  have hsub := (sublist_sortByKey hsorted List.filter_sublist).filter (key · = k)
  rw [List.filter_filter] at hsub
  simp only [Bool.and_self] at hsub
  exact (hsub.eq_of_length ((List.mergeSort_perm as _).filter _).length_eq.symm).symm

/-- Entries with the same key were found in the order in which they are sorted. -/
theorem pair_sublist_of_sortByKey (h : [a, b].Sublist (sortByKey key as)) (hkey : key a = key b) :
    [a, b].Sublist as := by
  have hfilter := h.filter (key · = key b)
  rw [filter_sortByKey] at hfilter
  simp only [List.filter_cons, hkey, decide_true, if_true, List.filter_nil] at hfilter
  exact hfilter.trans List.filter_sublist

/-- The sorted list ascends by value when each two entries are in order, and only then. -/
theorem pairwise_sortByKey_iff :
    (sortByKey key as).Pairwise (value · ≤ value ·) ↔ as.Pairwise (InOrder key value) := by
  rw [List.pairwise_iff_forall_sublist, List.pairwise_iff_forall_sublist]
  constructor
  · intro h a b hab
    have ha : a ∈ as := hab.subset (by simp)
    have hb : b ∈ as := hab.subset (by simp)
    constructor
    · intro hlt
      by_contra hkey
      have hne : a ≠ b := by
        rintro rfl
        exact hlt.false
      rcases pair_sublist ((mem_sortByKey key).2 ha) ((mem_sortByKey key).2 hb) hne with hsub | hsub
      · exact hkey (key_le_of_sublist hsub)
      · exact hlt.not_ge (h hsub)
    · intro hlt
      by_contra hkey
      exact hlt.not_ge (h (sublist_sortByKey (List.pairwise_pair.2 (not_lt.1 hkey)) hab))
  · intro h a b hab
    by_contra hlt
    rw [not_le] at hlt
    rcases (key_le_of_sublist hab).lt_or_eq with hkey | hkey
    · have hne : a ≠ b := by
        rintro rfl
        exact hlt.false
      rcases pair_sublist ((mem_sortByKey key).1 (hab.subset (by simp)))
        ((mem_sortByKey key).1 (hab.subset (by simp))) hne with hsub | hsub
      · exact hkey.not_gt ((h hsub).2 hlt)
      · exact hkey.not_ge ((h hsub).1 hlt)
    · exact ((h (pair_sublist_of_sortByKey hab hkey)).2 hlt).ne' hkey

/-! ## Without repetitions -/

/-- A list that ascends by value ascends strictly without its repetitions, and only such a list
does. -/
theorem pairwise_eraseReps_iff [BEq α] [LawfulBEq α]
    (hinj : ∀ a ∈ as, ∀ b ∈ as, value a = value b → a = b) :
    as.eraseReps.Pairwise (value · < value ·) ↔ as.Pairwise (value · ≤ value ·) := by
  induction as with
  | nil => simp [eraseReps_nil]
  | cons a as ih =>
    have ih := ih fun b hb c hc => hinj b (.tail a hb) c (.tail a hc)
    cases as with
    | nil => simp [eraseReps_singleton]
    | cons b as =>
      rw [eraseReps_cons_cons, List.pairwise_cons]
      split
      case isTrue h =>
        obtain rfl : a = b := eq_of_beq h
        rw [ih, List.pairwise_cons]
        refine ⟨fun hrest => ⟨fun c hc => ?_, hrest⟩, fun hall => hall.2⟩
        rcases List.mem_cons.1 hc with rfl | hc
        · exact le_rfl
        · exact hrest.1 c hc
      case isFalse h =>
        rw [List.pairwise_cons, ih]
        refine and_congr_left fun hrest => ?_
        simp only [mem_eraseReps]
        refine ⟨fun hlt c hc => (hlt c hc).le, fun hle c hc => ?_⟩
        have hlt : value a < value b := (hle b List.mem_cons_self).lt_of_ne fun heq =>
          h (beq_iff_eq.2 (hinj a List.mem_cons_self b (by simp) heq))
        rcases List.mem_cons.1 hc with rfl | hc
        · exact hlt
        · exact hlt.trans_le ((List.pairwise_cons.1 hrest).1 c hc)

end

end MarketAlgebra
