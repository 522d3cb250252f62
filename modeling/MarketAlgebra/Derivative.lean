import MarketAlgebra.Simplify.Pass

/-!
# Derivatives

`derivative` applies the rules of differentiation from the leaves up and simplifies what each rule
gives by one pass.  A quotient whose denominator does not mention the variable is differentiated
above the bar only.  A power whose exponent does not mention it follows the power rule, and any
other power `u ^ v` the rule `u ^ v * (v' * log u + v * u' / u)`.
-/

namespace MarketAlgebra

namespace Derivative

/-- The chain rule: the derivative of the argument times the outer derivative. -/
def chainRule (outer arg' : Expr) : Expr := simplifyOnce (.mul arg' outer)

/-- The product rule. -/
def productRule (a b a' b' : Expr) : Expr := simplifyOnce (.add (.mul a' b) (.mul a b'))

/-- The quotient rule for a denominator that mentions the variable. -/
def quotientRule (a b a' b' : Expr) : Expr :=
  simplifyOnce (.div (.sub (.mul a' b) (.mul a b')) (.pow b (.int 2)))

/-- An exponent less one. -/
def predecessor : Expr → Expr
  | .const n => .const (n - 1)
  | e => .sub e .one

/-- The power rule for an exponent that does not mention the variable. -/
def powerRule (u n u' : Expr) : Expr := simplifyOnce (.mul (.mul n (.pow u (predecessor n))) u')

/-- The rule for a power whose exponent mentions the variable. -/
def exponentialRule (u v u' v' : Expr) : Expr :=
  simplifyOnce (.mul (.pow u v) (.add (.mul v' (.call .log u)) (.div (.mul v u') u)))

end Derivative

open MarketAlgebra.Derivative in
/-- The derivative of an expression in a variable. -/
def derivative (x : String) : Expr → Expr
  | .var name => if name = x then .one else .zero
  | .const _ => .zero
  | .add a b => Simplify.add (derivative x a) (derivative x b)
  | .sub a b => Simplify.sub (derivative x a) (derivative x b)
  | .mul a b => productRule a b (derivative x a) (derivative x b)
  | .div a b =>
    if b.mentions x then quotientRule a b (derivative x a) (derivative x b)
    else simplifyOnce (.div (derivative x a) b)
  | .pow a b =>
    if b.mentions x then exponentialRule a b (derivative x a) (derivative x b)
    else powerRule a b (derivative x a)
  | .neg a => simplifyOnce (.neg (derivative x a))
  | .call .sin a => chainRule (.call .cos a) (derivative x a)
  | .call .cos a => simplifyOnce (.neg (chainRule (.call .sin a) (derivative x a)))
  | .call .tan a => chainRule (.div .one (.pow (.call .cos a) (.int 2))) (derivative x a)
  | .call .exp a => chainRule (.call .exp a) (derivative x a)
  | .call .log a => simplifyOnce (.div (derivative x a) a)

end MarketAlgebra
