import MarketAlgebra.Error
import MarketAlgebra.Expr.Order
import MarketAlgebra.Formula.Parser
import MarketAlgebra.Text.Blank

/-!
# Reading texts

What a text is read as depends on who reads it: a formula over any names (`read`), a formula over
one name only (`readIn`), or an equation of two formulas (`readEquation`).  A text that cannot be
read gives the reason.
-/

namespace MarketAlgebra.Formula

/-- The expression that a text denotes. -/
def read (text : String) : Except AlgebraError Expr :=
  match parse? text with
  | some e => .ok e
  | none => .error (.parse .grammar)

/-- The expression that a text denotes, which may mention no name but `x`.  Of several other names
the first one in the order of names is reported. -/
def readIn (text x : String) : Except AlgebraError Expr := do
  let e ← read text
  match e.freeVariables.find? (· != x) with
  | some name => throw (.parse (.unknownName name x))
  | none => return e

/-- The two sides of an equation.  The first equals sign divides the text, and blanks around the
sides are dropped. -/
def readEquation (text : String) : Except AlgebraError (Expr × Expr) := do
  let cs := text.toList
  match cs.dropWhile (· != '=') with
  | [] => throw (.parse .noEqualsSign)
  | _ :: right =>
    let left ← read (String.ofList (Text.strip (cs.takeWhile (· != '='))))
    return (left, ← read (String.ofList (Text.strip right)))

end MarketAlgebra.Formula
