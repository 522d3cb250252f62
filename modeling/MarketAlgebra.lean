import MarketAlgebra.Calculator
import MarketAlgebra.Market.Samples
import MarketAlgebra.Proofs.Differentiation
import MarketAlgebra.Proofs.Engine.Substitution
import MarketAlgebra.Proofs.Equation.Unsupported
import MarketAlgebra.Proofs.Formula.Normalization
import MarketAlgebra.Proofs.Formula.PolynomialText
import MarketAlgebra.Proofs.Formula.Shorthand
import MarketAlgebra.Proofs.Formula.Spelling
import MarketAlgebra.Proofs.Integral.Antiderivative
import MarketAlgebra.Proofs.Integral.Pole
import MarketAlgebra.Proofs.Integral.Polynomial
import MarketAlgebra.Proofs.Integral.Reciprocal
import MarketAlgebra.Proofs.Market.Accounting
import MarketAlgebra.Proofs.Market.Failures
import MarketAlgebra.Proofs.Market.FirstOrder
import MarketAlgebra.Proofs.Market.Input
import MarketAlgebra.Proofs.Market.SmallestSolution
import MarketAlgebra.Proofs.Poly.Euclid
import MarketAlgebra.Proofs.Poly.Reconstruction
import MarketAlgebra.Proofs.Poly.SquareFree
import MarketAlgebra.Proofs.RationalFunction.Field
import MarketAlgebra.Proofs.RationalFunction.Simplification
import MarketAlgebra.Proofs.Roots.Ascending
import MarketAlgebra.Proofs.Roots.Exact
import MarketAlgebra.Proofs.Roots.RationalSearch
import MarketAlgebra.Proofs.Simplify.Memoization
import MarketAlgebra.Proofs.Simplify.NormalForm
import MarketAlgebra.Proofs.Simplify.OrderIndependence
