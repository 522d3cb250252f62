import Mathlib.Data.List.Chain

/-!
# Erasing repetitions

`List.eraseReps` drops each element that equals the one before it.  No element is lost, and a list
without such repetitions stays as it is.
-/

namespace MarketAlgebra

section

variable {α : Type*}

theorem eraseReps_loop (r : α → α → Bool) (a : α) (as acc : List α) :
    List.eraseRepsBy.loop r a as acc = acc.reverse ++ List.eraseRepsBy.loop r a as [] := by
  induction as generalizing a acc with
  | nil => simp [List.eraseRepsBy.loop]
  | cons b as ih =>
    rw [List.eraseRepsBy.loop, List.eraseRepsBy.loop]
    cases r a b with
    | true => exact ih a acc
    | false => simp only [ih b (a :: acc), ih b [a], List.reverse_cons, List.append_assoc,
        List.reverse_nil, List.nil_append]

variable [BEq α]

theorem eraseReps_nil : ([] : List α).eraseReps = [] := rfl

theorem eraseReps_singleton (a : α) : [a].eraseReps = [a] := rfl

/-- An element is dropped when the next one equals it. -/
theorem eraseReps_cons_cons (a b : α) (as : List α) :
    (a :: b :: as).eraseReps =
      if a == b then (a :: as).eraseReps else a :: (b :: as).eraseReps := by
  simp only [List.eraseReps, List.eraseRepsBy, List.eraseRepsBy.loop]
  cases h : a == b with
  | true => simp
  | false => simp [eraseReps_loop _ b as [a]]

variable [LawfulBEq α]

/-- No element is lost and none is made up. -/
theorem mem_eraseReps {x : α} {as : List α} : x ∈ as.eraseReps ↔ x ∈ as := by
  induction as with
  | nil => rw [eraseReps_nil]
  | cons a as ih =>
    cases as with
    | nil => rw [eraseReps_singleton]
    | cons b as =>
      rw [eraseReps_cons_cons]
      cases h : a == b with
      | true =>
        obtain rfl : a = b := eq_of_beq h
        rw [if_pos rfl, ih]
        simp
      | false =>
        rw [if_neg (by simp), List.mem_cons, ih, List.mem_cons (a := x) (b := a)]

/-- A list in which no element follows an equal one stays as it is. -/
theorem eraseReps_eq_self {as : List α} (h : as.IsChain (· ≠ ·)) : as.eraseReps = as := by
  induction as with
  | nil => rfl
  | cons a as ih =>
    cases as with
    | nil => rfl
    | cons b as =>
      obtain ⟨hab, hb⟩ := List.isChain_cons_cons.1 h
      rw [eraseReps_cons_cons, if_neg (by simpa using hab), ih hb]

/-- Erasing keeps the order. -/
theorem eraseReps_sublist (as : List α) : as.eraseReps.Sublist as := by
  induction as with
  | nil => exact List.Sublist.refl _
  | cons a as ih =>
    cases as with
    | nil => exact List.Sublist.refl _
    | cons b as =>
      rw [eraseReps_cons_cons]
      split
      case isTrue h =>
        obtain rfl : a = b := eq_of_beq h
        exact ih.cons a
      case isFalse => exact ih.cons_cons a

end

/-! ## Sorted lists -/

section

variable {α β : Type*} [BEq α] [LawfulBEq α] {as : List (α × β)} {le : α × β → α × β → Bool}

/-- The keys of a list, sorted and without repetitions, are those of the list. -/
theorem mem_eraseReps_mergeSort {x : α} :
    x ∈ ((as.mergeSort le).map (·.1)).eraseReps ↔ x ∈ as.map (·.1) := by
  rw [mem_eraseReps]
  exact ((List.mergeSort_perm as le).map _).mem_iff

/-- Distinct keys are only put into another order. -/
theorem perm_eraseReps_mergeSort (h : (as.map (·.1)).Nodup) :
    ((as.mergeSort le).map (·.1)).eraseReps.Perm (as.map (·.1)) := by
  have hperm := (List.mergeSort_perm as le).map (·.1)
  rw [eraseReps_eq_self (hperm.nodup_iff.2 h).isChain]
  exact hperm

theorem length_eraseReps_mergeSort_le :
    ((as.mergeSort le).map (·.1)).eraseReps.length ≤ as.length := by
  refine (eraseReps_sublist _).length_le.trans ?_
  rw [List.length_map, List.length_mergeSort]

end

end MarketAlgebra
