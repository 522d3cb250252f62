import MarketAlgebra.Expr.Evaluation
import MarketAlgebra.Simplify.Pass

/-!
# Scalars

A scalar is a value without variables: its simplified exact expression together with a finite
approximation.  A rational scalar takes its sign from the exact value, any other one from the
approximation, where `-0` counts as negative.
-/

namespace MarketAlgebra

/-- An exact value and its approximation. -/
structure Scalar where
  /-- The exact value. -/
  exact : Expr
  /-- Its approximation. -/
  approx : Float
deriving DecidableEq

namespace Scalar

/-- The value of an expression without variables. -/
def ofExpr (e : Expr) : Except UndefinedValue Scalar := do
  let exact := simplify e
  return ⟨exact, ← exact.evaluate⟩

/-- The difference of two values. -/
protected def sub (s t : Scalar) : Except UndefinedValue Scalar := ofExpr (.sub s.exact t.exact)

/-- The product of two values. -/
protected def mul (s t : Scalar) : Except UndefinedValue Scalar := ofExpr (.mul s.exact t.exact)

/-- Whether the exact value is a rational constant. -/
def isRational (s : Scalar) : Bool := s.exact.constant?.isSome

/-- Whether the value is negative. -/
def isNegative (s : Scalar) : Bool :=
  match s.exact.constant? with
  | some c => c < 0
  | none => Binary64.isNegative s.approx

/-- The exact value as text, followed by the approximation when it is not rational. -/
def text (s : Scalar) : String :=
  if s.isRational then s.exact.text
  else s.exact.text ++ " ≈ " ++ Decimal.plain s.approx

end Scalar

end MarketAlgebra
