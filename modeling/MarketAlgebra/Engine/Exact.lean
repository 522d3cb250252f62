import MarketAlgebra.Derivative
import MarketAlgebra.Engine.Basic
import MarketAlgebra.Equation
import MarketAlgebra.Formula.Reading
import MarketAlgebra.Integral.Definite

/-!
# The built-in engine

The engine of this library computes with exact rationals, and with quadrature only for integrals
without a known antiderivative.
-/

namespace MarketAlgebra.Engine

/-- The built-in engine. -/
def exact : Engine Id where
  parse text x := Formula.readIn text x
  differentiate e x := .ok (simplify (derivative x e))
  solve left right x := MarketAlgebra.solve left right x
  substitute e x value := (Scalar.ofExpr (e.substitute x value)).mapError .undefined
  integrate e x lower upper :=
    (definiteIntegral x e lower upper >>= Scalar.ofExpr).mapError .undefined

end MarketAlgebra.Engine
