import MarketAlgebra.Expr.Exponent
import MarketAlgebra.Expr.Printer
import MarketAlgebra.Number.Decimal

/-!
# Failures of the algebra system

A failure is a value that says what happened: which expression has no value and why, which equation
is beyond the solver, what is wrong with a text.  There are three kinds, for texts that are not
understood, tasks that are not supported and values that do not exist.  `AlgebraError.message` is
the only place where a failure becomes a sentence.

One of the values that do not exist is the quotient by a polynomial whose exponents have wrapped
around to nothing (`UndefinedValue.vanishedDivisor`).  There the program stops, and no computation
goes on after this failure.
-/

namespace MarketAlgebra

/-- Why a text is not understood. -/
inductive ParseFault where
  /-- The text is not a formula. -/
  | grammar
  /-- The formula mentions a name other than the only one it may mention. -/
  | unknownName (name allowed : String)
  /-- The text of an equation has no equals sign. -/
  | noEqualsSign
deriving DecidableEq, Repr

/-- Why a task is not supported. -/
inductive UnsupportedTask where
  /-- The difference of the two sides of an equation has a power that is not expanded. -/
  | largePower (difference : Expr) (x : String)
  /-- The difference of the two sides of an equation is no rational function. -/
  | notRational (difference : Expr) (x : String)
  /-- A reason that an engine states in its own words. -/
  | stated (reason : String)
deriving DecidableEq, Repr

/-- Why a value does not exist. -/
inductive UndefinedValue where
  /-- A variable has no value. -/
  | freeVariable (name : String)
  /-- The denominator of a quotient is zero. -/
  | divisionByZero (quotient : Expr)
  /-- The argument of a logarithm is not positive. -/
  | nonPositiveLog (argument : Float) (logarithm : Expr)
  /-- The value is infinite or not real. -/
  | notFinite (expr : Expr)
  /-- The integrand has a pole between the bounds. -/
  | pole (x : String) (point : Float)
  /-- The integrand is not finite at a point where it was sampled. -/
  | integrandNotFinite
  /-- The value that quadrature arrived at is not finite. -/
  | quadratureResult (value : Float)
  /-- A divisor has become zero because exponents wrapped around, and the program stops. -/
  | vanishedDivisor
  /-- An integral does not converge. -/
  | divergent (integrand lower upper : Expr) (why : UndefinedValue)
deriving DecidableEq, Repr

/-- A failure of the algebra system. -/
inductive AlgebraError where
  | parse (fault : ParseFault)
  | unsupported (task : UnsupportedTask)
  | undefined (why : UndefinedValue)
deriving DecidableEq, Repr

/-- What is wrong with a text. -/
def ParseFault.description : ParseFault → String
  | .grammar => "not a formula"
  | .unknownName name allowed =>
    "unknown symbol `" ++ name ++ "`; only `" ++ allowed ++ "` is recognized"
  | .noEqualsSign => "equation must contain '='"

/-- What is not supported. -/
def UnsupportedTask.description : UnsupportedTask → String
  | .largePower difference x =>
    "cannot solve " ++ difference.text ++ " = 0 for " ++ x ++ ": powers above "
      ++ toString expansionLimit ++ " are not expanded"
  | .notRational difference x =>
    "cannot solve " ++ difference.text ++ " = 0 for " ++ x ++ ": not a rational function of " ++ x
  | .stated reason => reason

/-- What every message about an undefined value starts with. -/
def UndefinedValue.heading : String := "undefined value: "

/-- Which value is undefined. -/
def UndefinedValue.description : UndefinedValue → String
  | .freeVariable name => "free symbol `" ++ name ++ "` has no numeric value"
  | .divisionByZero quotient => "division by zero in " ++ quotient.text
  | .nonPositiveLog argument logarithm =>
    "logarithm of non-positive value " ++ Decimal.plain argument ++ " in " ++ logarithm.text
  | .notFinite expr => expr.text ++ " is not a finite real number"
  | .pole x point => "pole at " ++ x ++ " = " ++ Decimal.plain point
  | .integrandNotFinite => "integrand is not finite on the interval"
  | .quadratureResult value => "quadrature produced " ++ Decimal.plain value
  | .vanishedDivisor => "denominator == 0"
  | .divergent integrand lower upper why =>
    "integral of " ++ integrand.text ++ " over [" ++ lower.text ++ ", " ++ upper.text
      ++ "] does not converge: " ++ heading ++ why.description

/-- The sentence that reports a failure. -/
def AlgebraError.message : AlgebraError → String
  | .parse fault => "parse error: " ++ fault.description
  | .unsupported task => "unsupported operation: " ++ task.description
  | .undefined why => UndefinedValue.heading ++ why.description

end MarketAlgebra
