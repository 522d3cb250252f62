import MarketAlgebra.Error

/-!
# Numeric evaluation

An expression is evaluated to a float, from the leaves up and part by part from left to right,
except that a denominator is evaluated before its numerator.  Every intermediate value has to be
finite.  A zero denominator and a logarithm of a number that is not positive are reported as such,
and so is a variable without a value.
-/

namespace MarketAlgebra.Expr

/-- The value, unless it is infinite or undefined. -/
def finite (e : Expr) (value : Float) : Except UndefinedValue Float :=
  if value.isFinite then .ok value else .error (.notFinite e)

/-- The value of an expression where the variables have the given values. -/
def evalIn (env : String → Option Float) (e : Expr) : Except UndefinedValue Float := do
  match e with
  | .var name =>
    match env name with
    | some value => finite e value
    | none => .error (.freeVariable name)
  | .const c => finite e (Binary64.ofRat c)
  | .add a b => finite e ((← evalIn env a) + (← evalIn env b))
  | .sub a b => finite e ((← evalIn env a) - (← evalIn env b))
  | .mul a b => finite e ((← evalIn env a) * (← evalIn env b))
  | .div a b =>
    let denom ← evalIn env b
    if denom == 0 then .error (.divisionByZero e)
    else finite e ((← evalIn env a) / denom)
  | .pow a b => finite e (Float.pow (← evalIn env a) (← evalIn env b))
  | .neg a => finite e (-(← evalIn env a))
  | .call f a =>
    let arg ← evalIn env a
    match f with
    | .sin => finite e arg.sin
    | .cos => finite e arg.cos
    | .tan => finite e arg.tan
    | .exp => finite e arg.exp
    | .log => if arg ≤ 0 then .error (.nonPositiveLog arg e) else finite e arg.log

/-- The value of an expression without variables. -/
def evaluate (e : Expr) : Except UndefinedValue Float := e.evalIn fun _ => none

/-- The value of an expression where one variable has a value. -/
def evaluateAt (e : Expr) (x : String) (value : Float) : Except UndefinedValue Float :=
  e.evalIn fun name => if name = x then some value else none

end MarketAlgebra.Expr
