import MarketAlgebra.Proofs.Equation

/-!
# How solutions are written

Every solution is an expression without variables that has a value, and it is written in the form
that simplification gives it (`written_of_mem_solve`).  So a solution and its value as a quantity
have the same exact expression and the same approximation.
-/

namespace MarketAlgebra

/-- The expression has one value, whatever the values of the variables are, and simplification does
not change it. -/
structure Expr.Written (e : Expr) : Prop where
  hasValue : ∀ s, e.HasValue s e.value
  simplify : MarketAlgebra.simplify e = e

theorem simplify_const (c : Rat) : simplify (.const c) = .const c := simplify_eq_of_step rfl rfl

theorem Expr.written_const (c : Rat) : (Expr.const c).Written :=
  ⟨Roots.hasValue_const c, simplify_const c⟩

namespace Roots

variable {p : Poly} {e : Expr}

/-- A surd is written as a multiple of its root and a constant. -/
theorem simplify_surdRoot (center offset : Rat) (inside : Nat) :
    simplify (surdRoot center offset inside).1 = (surdRoot center offset inside).1 := by
  have hatom := Simplify.atom_sqrt (inside : Rat)
  rw [surdRoot, simplify_const_add_mul hatom, simplify_affine hatom]

/-- The exact roots of a quadratic polynomial are in normal form. -/
theorem simplify_of_mem_quadraticRoots (h : e ∈ (quadraticRoots p).map (·.1)) :
    simplify e = e := by
  rw [quadraticRoots] at h
  split_ifs at h
  · cases h
  · rw [List.mem_singleton.1 h]
    exact simplify_const _
  · dsimp only at h
    split at h
    · rcases List.mem_pair.1 h with rfl | rfl <;> exact simplify_const _
    · rcases List.mem_pair.1 h with rfl | rfl <;> exact simplify_surdRoot _ _ _

theorem simplify_of_mem_remainingRoots (h : e ∈ (remainingRoots p).map (·.1)) :
    simplify e = e := by
  rw [remainingRoots] at h
  split at h
  · cases h
  · cases h
  · rw [List.mem_singleton.1 h]
    exact simplify_const _
  · exact simplify_of_mem_quadraticRoots h
  · rw [List.map_map] at h
    obtain ⟨a, -, rfl⟩ := List.mem_map.1 h
    exact simplify_const a

/-- The listed roots are in normal form. -/
theorem written_of_mem_listed (hp : p.toPolynomial ≠ 0) (h : e ∈ listed p) : e.Written := by
  rcases List.mem_append.1 h with he | he
  · refine ⟨(exact_exactRoots hp).hasValue e he, ?_⟩
    rcases List.mem_append.1 he with he | he
    · obtain ⟨a, -, rfl⟩ := List.mem_map.1 he
      exact simplify_const a
    · split at he
      · exact simplify_of_mem_remainingRoots he
      · cases he
  · obtain ⟨a, -, rfl⟩ := List.mem_map.1 he
    exact Expr.written_const a

end Roots

/-- The solutions of an equation are in normal form. -/
theorem written_of_mem_solve {left right e : Expr} {x : String} {roots : List Expr}
    (h : solve left right x = .ok roots) (he : e ∈ roots) : e.Written := by
  cases hread : RationalFunction.read x (simplify (.sub left right)) with
  | error fault =>
    rw [solve, hread] at h
    cases fault <;> cases h
  | ok f =>
    by_cases hzero : f.numer.isZero = true
    · simp only [solve, hread, if_pos hzero] at h
      obtain rfl := Except.ok.inj h
      cases he
    · have hf := toOption_eq_some_iff.2 hread
      have hne := mt Poly.isZero_iff.2 hzero
      exact Roots.written_of_mem_listed hne ((mem_solve_iff h hf hne).1 he).1

end MarketAlgebra
