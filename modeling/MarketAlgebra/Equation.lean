import MarketAlgebra.Expr.Evaluation
import MarketAlgebra.RationalFunction
import MarketAlgebra.Roots.Real

/-!
# Equations in one variable

An equation is solved when the difference of its sides is a rational function.  Its solutions are
the roots of the reduced numerator, so a singularity that cancels does not hide a solution.  An
equation that holds everywhere has no isolated solutions and gives the empty list, like one that
holds nowhere.
-/

namespace MarketAlgebra

/-- The real solutions of `left = right`, in the order of their values. -/
def solve (left right : Expr) (x : String) : Except AlgebraError (List Expr) :=
  let difference := simplify (.sub left right)
  match RationalFunction.read x difference with
  | .error .notRational =>
    .error (.unsupported
      (if difference.hasLargePower then .largePower difference x
        else .notRational difference x))
  | .error .vanishedDivisor => .error (.undefined .vanishedDivisor)
  | .ok f => do
    if f.numer.isZero then return []
    let roots := (Roots.realRoots f.numer).filter fun root =>
      (root.constant?.map fun c => f.denom.eval c != 0).getD true
    let valued ← roots.mapM fun root => do
      let value ← root.evaluate.mapError .undefined
      return (root, value)
    return ((valued.mergeSort fun r s => Binary64.notAfter r.2 s.2).map (·.1)).eraseReps

end MarketAlgebra
