import MarketAlgebra.Proofs.Simplify.Operation
import MarketAlgebra.Simplify.Pass

/-!
# Simplification keeps the value

A pass replaces every constructor by its operation, from the leaves up, and every operation keeps
the value of its constructor (`Simplify.keeps_step`).  With a sound cache a cached pass gives what a
pass gives, so repeated passes that share one cache keep the value as well
(`Simplify.keeps_passes`), after any number of them.
-/

namespace MarketAlgebra

open MarketAlgebra.Expr

namespace Simplify

/-- A pass keeps the value. -/
theorem keeps_step (s : String → ℝ) (e : Expr) : Keeps s e (step e) := by
  induction e with
  | var x => exact .refl s _
  | const c => exact .refl s _
  | add a b iha ihb => exact (Keeps.add iha ihb).trans (keeps_add s _ _)
  | sub a b iha ihb => exact (Keeps.sub iha ihb).trans (keeps_sub s _ _)
  | mul a b iha ihb => exact (Keeps.mul iha ihb).trans (keeps_mul s _ _)
  | div a b iha ihb => exact (Keeps.div iha ihb).trans (keeps_div s _ _)
  | pow a b iha ihb => exact (Keeps.pow iha ihb).trans (keeps_pow s _ _)
  | neg a ih => exact (Keeps.neg ih).trans (keeps_neg s _)
  | call f a ih => exact (Keeps.call f ih).trans (keeps_call s f _)

/-- Any number of passes with a sound cache keeps the value. -/
theorem keeps_passes (s : String → ℝ) (n : Nat) (e : Expr) {cache : Cache} (h : cache.Sound) :
    Keeps s e (passes n e cache) := by
  induction n generalizing e cache with
  | zero => exact .refl s e
  | succ n ih =>
    obtain ⟨hstep, hsound⟩ := yields_cached e cache h
    simp only [passes]
    split
    next => exact .refl s e
    next =>
      rw [hstep]
      exact (keeps_step s e).trans (ih (step e) hsound)

end Simplify

/-- What is run is a pass. -/
theorem simplifyOnce_eq_step (e : Expr) : simplifyOnce e = Simplify.step e :=
  (Simplify.yields_cached e ∅ Simplify.Cache.sound_empty).1

/-- One pass keeps the value. -/
theorem keeps_simplifyOnce (s : String → ℝ) (e : Expr) : Keeps s e (simplifyOnce e) := by
  rw [simplifyOnce_eq_step]
  exact Simplify.keeps_step s e

/-- Passes up to any limit keep the value. -/
theorem keeps_simplifyUpTo (s : String → ℝ) (limit : Nat) (e : Expr) :
    Keeps s e (simplifyUpTo limit e) :=
  Simplify.keeps_passes s limit e Simplify.Cache.sound_empty

/-- A full simplification keeps the value. -/
theorem keeps_simplify (s : String → ℝ) (e : Expr) : Keeps s e (simplify e) :=
  keeps_simplifyUpTo s passLimit e

/-- Passes do not change an expression that one pass leaves as it is. -/
theorem Simplify.passes_of_step_eq {e : Expr} {cache : Simplify.Cache} (h : Simplify.step e = e)
    (hc : cache.Sound) (n : Nat) : Simplify.passes n e cache = e := by
  cases n with
  | zero => rfl
  | succ n =>
    simp only [Simplify.passes]
    rw [if_pos ((Simplify.yields_cached e cache hc).1.trans h)]

theorem Simplify.passes_succ_of_step_eq {e d : Expr} {cache : Simplify.Cache}
    (h : Simplify.step e = d) (hd : Simplify.step d = d) (hc : cache.Sound) (n : Nat) :
    Simplify.passes (n + 1) e cache = d := by
  obtain ⟨hstep, hsound⟩ := Simplify.yields_cached e cache hc
  simp only [Simplify.passes]
  split
  case isTrue heq => rw [← h, ← hstep, heq]
  case isFalse =>
    rw [hstep, h]
    exact Simplify.passes_of_step_eq hd hsound n

/-- The passes end with an expression that one more pass leaves as it is. -/
theorem simplify_eq_of_step {e d : Expr} (h : Simplify.step e = d) (hd : Simplify.step d = d) :
    simplify e = d :=
  Simplify.passes_succ_of_step_eq h hd Simplify.Cache.sound_empty 63

/-- Simplifying an expression, once, fully or with any limit, never changes a value it has, and
neither does any single operation on operands. -/
theorem simplification_keeps_values (s : String → ℝ) :
    (∀ (e : Expr) (v : ℝ), e.HasValue s v →
      (simplifyOnce e).HasValue s v ∧ (simplify e).HasValue s v ∧
        ∀ limit, (simplifyUpTo limit e).HasValue s v) ∧
    ∀ (x y : Expr) (v : ℝ),
      ((Expr.add x y).HasValue s v → (Simplify.add x y).HasValue s v) ∧
      ((Expr.sub x y).HasValue s v → (Simplify.sub x y).HasValue s v) ∧
      ((Expr.mul x y).HasValue s v → (Simplify.mul x y).HasValue s v) ∧
      ((Expr.div x y).HasValue s v → (Simplify.div x y).HasValue s v) ∧
      ((Expr.pow x y).HasValue s v → (Simplify.pow x y).HasValue s v) ∧
      ((Expr.neg x).HasValue s v → (Simplify.neg x).HasValue s v) := by
  constructor
  · intro e v h
    exact ⟨(keeps_simplifyOnce s e).hasValue h, (keeps_simplify s e).hasValue h,
      fun limit => (keeps_simplifyUpTo s limit e).hasValue h⟩
  · intro x y v
    exact ⟨(Simplify.keeps_add s x y).hasValue, (Simplify.keeps_sub s x y).hasValue,
      (Simplify.keeps_mul s x y).hasValue, (Simplify.keeps_div s x y).hasValue,
      (Simplify.keeps_pow s x y).hasValue, (Simplify.keeps_neg s x).hasValue⟩

/-- The square of a root, at `4`: the root is merged away and the value stays. -/
theorem simplification_keeps_values_of_root :
    let s : String → ℝ := fun _ => 4
    let x : Expr := .sqrt (.var "Q")
    let y : Expr := .const 2
    ((Expr.pow x y).HasValue s 4 ∧ (simplifyOnce (.pow x y)).HasValue s 4 ∧
      (simplify (.pow x y)).HasValue s 4 ∧ ∀ limit, (simplifyUpTo limit (.pow x y)).HasValue s 4) ∧
    (Simplify.add x y).HasValue s 4 ∧ (Simplify.sub x y).HasValue s 0 ∧
      (Simplify.mul x y).HasValue s 4 ∧ (Simplify.div x y).HasValue s 1 ∧
      (Simplify.pow x y).HasValue s 4 ∧ (Simplify.neg x).HasValue s (-2) := by
  intro s x y
  have hroot : x.real s = 2 := by
    have h : (4 : ℝ) ^ (1 / 2 : ℝ) = 2 := by
      rw [← Real.sqrt_eq_rpow, show (4 : ℝ) = 2 ^ 2 by norm_num]
      exact Real.sqrt_sq (by norm_num)
    simpa [x, s, Expr.sqrt, Expr.real] using h
  have hx : x.Defined s := ⟨trivial, trivial, .of_pos (by norm_num [s, Expr.real]) _⟩
  have hy : y.real s = 2 := by simp [y]
  have hpow : (Expr.pow x y).HasValue s 4 := by
    refine ⟨⟨hx, trivial, .of_pos (by norm_num [hroot]) _⟩, ?_⟩
    rw [Expr.real, hroot, hy]
    norm_num
  obtain ⟨hall, hop⟩ := simplification_keeps_values s
  exact ⟨⟨hpow, hall _ 4 hpow⟩,
    (hop x y 4).1 ⟨⟨hx, trivial⟩, by norm_num [Expr.real, hroot, hy]⟩,
    (hop x y 0).2.1 ⟨⟨hx, trivial⟩, by norm_num [Expr.real, hroot, hy]⟩,
    (hop x y 4).2.2.1 ⟨⟨hx, trivial⟩, by norm_num [Expr.real, hroot, hy]⟩,
    (hop x y 1).2.2.2.1 ⟨⟨hx, trivial, by norm_num [hy]⟩, by norm_num [Expr.real, hroot, hy]⟩,
    (hop x y 4).2.2.2.2.1 hpow,
    (hop x y (-2)).2.2.2.2.2 ⟨hx, by norm_num [Expr.real, hroot]⟩⟩

end MarketAlgebra
