import MarketAlgebra.Engine.Basic
import MarketAlgebra.Formula.Words

/-!
# Valid inputs

Demand and cost come as texts.  A text is valid when the engine can read it as an expression in the
quantity, and, unless constants are allowed, when the quantity is one of its words.  The words are
searched first, so a text without the quantity never reaches the engine.
-/

namespace MarketAlgebra.Market

/-- Why a text is not valid. -/
inductive InputFault where
  /-- The quantity is not one of its words. -/
  | missingVariable (x : String)
  /-- The engine cannot read it. -/
  | unreadable (cause : AlgebraError)
deriving DecidableEq

/-- The sentence that reports a fault. -/
def InputFault.message : InputFault → String
  | .missingVariable x => "expression does not mention `" ++ x ++ "`"
  | .unreadable cause => cause.message

/-- A valid text and the expression it denotes. -/
structure Input where
  /-- The text. -/
  text : String
  /-- The expression. -/
  expr : Expr
deriving DecidableEq

/-- The text as a valid input. -/
def Input.read {m : Type → Type} [Monad m] (engine : Engine m) (text x : String)
    (allowConstant : Bool) : m (Except InputFault Input) := do
  if !allowConstant && !Formula.hasWord text x then
    return .error (.missingVariable x)
  match ← engine.parse text x with
  | .ok e => return .ok ⟨text, e⟩
  | .error cause => return .error (.unreadable cause)

end MarketAlgebra.Market
