import MarketAlgebra.Scalar

/-!
# Engines

The market asks an algebra system for five things, and for nothing else: to read a formula, to
differentiate, to solve an equation, to evaluate at a point and to integrate.  An engine answers
these calls, each with a result or a failure.  It answers in some monad, so an engine may keep a
state, and a computation on top of it is one definition for all engines: it can be run with the
built-in engine, and it can be observed through an engine that writes down its calls
(`Engine.recorded`).
-/

namespace MarketAlgebra

/-- The five operations that the computation of an equilibrium needs. -/
structure Engine (m : Type → Type) where
  /-- The formula that a text denotes, over the one name that it may mention. -/
  parse (text x : String) : m (Except AlgebraError Expr)
  /-- The derivative. -/
  differentiate (e : Expr) (x : String) : m (Except AlgebraError Expr)
  /-- The real solutions of an equation. -/
  solve (left right : Expr) (x : String) : m (Except AlgebraError (List Expr))
  /-- The value where the variable has a given value. -/
  substitute (e : Expr) (x : String) (value : Expr) : m (Except AlgebraError Scalar)
  /-- The integral between two bounds. -/
  integrate (e : Expr) (x : String) (lower upper : Expr) : m (Except AlgebraError Scalar)

/-- One call of an engine. -/
inductive Call where
  | parse (text x : String)
  | differentiate (e : Expr) (x : String)
  | solve (left right : Expr) (x : String)
  | substitute (e : Expr) (x : String) (value : Expr)
  | integrate (e : Expr) (x : String) (lower upper : Expr)
deriving DecidableEq

/-- The call on one line, with expressions as text. -/
def Call.text : Call → String
  | .parse text x => "parse " ++ text ++ " | " ++ x
  | .differentiate e x => "differentiate " ++ e.text ++ " | " ++ x
  | .solve left right x => "solve " ++ left.text ++ " | " ++ right.text ++ " | " ++ x
  | .substitute e x value => "substitute " ++ e.text ++ " | " ++ x ++ " | " ++ value.text
  | .integrate e x lower upper =>
    "integrate " ++ e.text ++ " | " ++ x ++ " | " ++ lower.text ++ " | " ++ upper.text

namespace Engine

variable {m : Type → Type} [Monad m]

/-- The answer to a call that is written down first. -/
def record {α : Type} (call : Call) (answer : m α) : StateT (List Call) m α := do
  modify (· ++ [call])
  answer

/-- The engine that writes down every call before it hands it on. -/
def recorded (engine : Engine m) : Engine (StateT (List Call) m) where
  parse text x := record (.parse text x) (engine.parse text x)
  differentiate e x := record (.differentiate e x) (engine.differentiate e x)
  solve left right x := record (.solve left right x) (engine.solve left right x)
  substitute e x value := record (.substitute e x value) (engine.substitute e x value)
  integrate e x lower upper :=
    record (.integrate e x lower upper) (engine.integrate e x lower upper)

end Engine

end MarketAlgebra
