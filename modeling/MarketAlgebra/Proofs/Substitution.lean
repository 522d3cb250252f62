import MarketAlgebra.Proofs.Value

/-!
# Values under substitution

Replacing a variable by an expression with the value `v` has the effect of giving the variable the
value `v`.
-/

namespace MarketAlgebra.Expr

variable {s : String → ℝ} {x : String} {r : Expr} {v : ℝ}

theorem real_substitute (hr : r.real s = v) (e : Expr) :
    (e.substitute x r).real s = e.real (Function.update s x v) := by
  induction e with
  | var name =>
    rw [substitute, real, Function.update_apply]
    split
    · exact hr
    · rfl
  | const c => rfl
  | add a b iha ihb | sub a b iha ihb | mul a b iha ihb | div a b iha ihb | pow a b iha ihb =>
    simp only [substitute, real, iha, ihb]
  | neg a ih | call f a ih => simp only [substitute, real, ih]

theorem defined_substitute_iff (hr : r.HasValue s v) (e : Expr) :
    (e.substitute x r).Defined s ↔ e.Defined (Function.update s x v) := by
  have hreal := real_substitute (x := x) hr.2
  induction e with
  | var name =>
    rw [substitute]
    split
    · exact iff_of_true hr.1 trivial
    · exact Iff.rfl
  | const c => exact Iff.rfl
  | add a b iha ihb | sub a b iha ihb | mul a b iha ihb => exact and_congr iha ihb
  | div a b iha ihb | pow a b iha ihb => simp only [substitute, Defined, iha, ihb, hreal]
  | neg a ih => exact ih
  | call f a ih => simp only [substitute, Defined, ih, hreal]

/-- The value of an expression where a variable is replaced. -/
theorem hasValue_substitute_iff (hr : r.HasValue s v) (e : Expr) {w : ℝ} :
    (e.substitute x r).HasValue s w ↔ e.HasValue (Function.update s x v) w :=
  and_congr (defined_substitute_iff hr e) (by rw [real_substitute hr.2])

end MarketAlgebra.Expr
