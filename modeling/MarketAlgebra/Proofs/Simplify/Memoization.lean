import Mathlib
import MarketAlgebra.Simplify.Pass

/-!
# The cache does not show

A sound cache never changes what a pass gives, and it stays sound (`yields_cached`).  So the passes
that share one cache are passes without any (`exists_passes_eq`): they stop at the first expression
that a pass leaves as it is, or when the limit is reached.  Further passes would not change that
expression, so all passes up to the limit might as well be made (`passes_eq_iterate`).
-/

namespace MarketAlgebra.Simplify

variable {e : Expr} {cache : Cache}

/-- The passes with a sound cache end at the first fixed point of a pass, if the limit allows. -/
theorem exists_passes_eq (n : Nat) (e : Expr) (hc : cache.Sound) :
    ∃ k ≤ n, passes n e cache = step^[k] e ∧
      (∀ j < k, step (step^[j] e) ≠ step^[j] e) ∧ (k < n → step (step^[k] e) = step^[k] e) := by
  induction n generalizing e cache with
  | zero => exact ⟨0, Nat.le_refl 0, rfl, nofun, nofun⟩
  | succ n ih =>
    obtain ⟨hstep, hsound⟩ := yields_cached e cache hc
    simp only [passes, hstep]
    split
    case isTrue hfixed => exact ⟨0, Nat.zero_le _, rfl, nofun, fun _ => hfixed⟩
    case isFalse hmoved =>
      obtain ⟨k, hk, heq, hbefore, hafter⟩ := ih (step e) hsound
      refine ⟨k + 1, Nat.succ_le_succ hk, heq, fun j hj => ?_, fun h => ?_⟩
      · cases j with
        | zero => exact hmoved
        | succ j => exact hbefore j (Nat.lt_of_succ_lt_succ hj)
      · exact hafter (Nat.lt_of_succ_lt_succ h)

/-- The passes with a sound cache are as many passes without one. -/
theorem passes_eq_iterate (n : Nat) (e : Expr) (hc : cache.Sound) :
    passes n e cache = step^[n] e := by
  obtain ⟨k, hk, heq, -, hafter⟩ := exists_passes_eq n e hc
  rcases Nat.eq_or_lt_of_le hk with rfl | hlt
  · exact heq
  · have hfixed := Function.iterate_fixed (hafter hlt) (n - k)
    rw [← Function.iterate_add_apply, Nat.sub_add_cancel hk] at hfixed
    rw [heq, hfixed]

/-- With any sound cache a cached pass gives what a pass gives and leaves a sound cache.  So passes
that share a cache are passes without one, up to the first fixed point or the limit. -/
theorem memoization_is_transparent :
    (∀ (cache : Cache) (e : Expr), cache.Sound →
      (cached e cache).1 = step e ∧ (cached e cache).2.Sound) ∧
    ∀ (n : Nat) (e : Expr), simplifyUpTo n e = step^[n] e ∧
      ∃ k ≤ n, simplifyUpTo n e = step^[k] e ∧
        (∀ j < k, step (step^[j] e) ≠ step^[j] e) ∧
        (k < n → step (step^[k] e) = step^[k] e) :=
  ⟨fun cache e hc => yields_cached e cache hc, fun n e =>
    ⟨passes_eq_iterate n e Cache.sound_empty, exists_passes_eq n e Cache.sound_empty⟩⟩

/-- A cache that already holds a part of the expression. -/
theorem memoization_is_transparent_of_double :
    let x : Expr := .var "Q"
    let double : Expr := .add x x
    let cache : Cache := (∅ : Cache).insert double (.mul (.const 2) x)
    cache.Sound ∧ cache[double]? = some (.mul (.const 2) x) ∧
      (cached (.mul double double) cache).1 = step (.mul double double) ∧
      (cached (.mul double double) cache).2.Sound ∧
      simplifyUpTo 5 (.mul double double) = step^[5] (.mul double double) := by
  intro x double cache
  have hstep : step (.add (.var "Q") (.var "Q")) = .mul (.const 2) (.var "Q") := by cbv
  have hc : cache.Sound := by
    have hinsert := Cache.sound_empty.insert double
    rwa [hstep] at hinsert
  obtain ⟨hcached, hpasses⟩ := memoization_is_transparent
  exact ⟨hc, by simp [cache], (hcached cache _ hc).1, (hcached cache _ hc).2, (hpasses 5 _).1⟩

end MarketAlgebra.Simplify
