import MarketAlgebra.Error
import MarketAlgebra.RationalFunction
import MarketAlgebra.Simplify.Pass

/-!
# Antiderivatives

Polynomials, and quotients that cancel down to polynomials, are integrated term by term.  Otherwise
the integral is linear: sums, negations and factors that do not mention the variable are taken
apart, and what remains has to be a power, an exponential, a logarithm, a sine or a cosine of an
argument `k * x + c` with `k` not zero.  Where no rule applies there is no result.

A polynomial that contains the largest exponent has no antiderivative, and neither it nor an
expression whose denominators vanish lets the search go on (`UndefinedValue.vanishedDivisor`).
-/

namespace MarketAlgebra

namespace Antiderivative

/-- The slope `k` of an expression `k * x + c` with `k` not zero. -/
def slope? (x : String) (e : Expr) : Option Rat := do
  let p ← Poly.ofExpr? x e
  if p.degree? = some 1 then some (p.coeff 1) else none

/-- The value of an exponent that simplifies to a constant. -/
def constantExponent? (e : Expr) : Option Rat := (simplify e).constant?

/-- The antiderivative of a power with a constant exponent. -/
def ofPower? (x : String) (u n : Expr) : Option Expr := do
  let k ← slope? x u
  let n ← constantExponent? n
  if n = -1 then return .div (.call .log u) (.const k)
  return .div (.pow u (.const (n + 1))) (.const (k * (n + 1)))

/-- The antiderivative of a power or a function value of an argument of the form `k * x + c`. -/
def elementary? (x : String) : Expr → Option Expr
  | .pow u n => if n.mentions x then none else ofPower? x u n
  | .call .exp u => return .div (.call .exp u) (.const (← slope? x u))
  | .call .sin u => return .neg (.div (.call .cos u) (.const (← slope? x u)))
  | .call .cos u => return .div (.call .sin u) (.const (← slope? x u))
  | .call .log u =>
    return .div (.sub (.mul u (.call .log u)) u) (.const (← slope? x u))
  | _ => none

/-- The integral of a polynomial, as long as its degree has a successor. -/
def integrated (x : String) (p : Poly) : Except UndefinedValue Expr :=
  if p.isIntegrable then .ok (p.integral.toExpr x) else .error .vanishedDivisor

/-- The integral of an expression that is a polynomial or cancels down to one. -/
def polynomial? (x : String) (e : Expr) : Except UndefinedValue (Option Expr) :=
  match Poly.ofExpr? x e with
  | some p => (integrated x p).map some
  | none =>
    match RationalFunction.read x e with
    | .ok f => if f.denom.isOne then (integrated x f.numer).map some else .ok none
    | .error .notRational => .ok none
    | .error .vanishedDivisor => .error .vanishedDivisor

end Antiderivative

open Antiderivative in
/-- An antiderivative of an expression in a variable, if a rule applies. -/
def antiderivative (x : String) (e : Expr) : OptionT (Except UndefinedValue) Expr := do
  match ← OptionT.lift (polynomial? x e) with
  | some r => return r
  | none =>
    if !e.mentions x then return .mul e (.var x)
    else
      match e with
      | .add a b => return .add (← antiderivative x a) (← antiderivative x b)
      | .sub a b => return .sub (← antiderivative x a) (← antiderivative x b)
      | .neg a => return .neg (← antiderivative x a)
      | .mul a b =>
        if !a.mentions x then return .mul a (← antiderivative x b)
        else if !b.mentions x then return .mul b (← antiderivative x a)
        else failure
      | .div a b =>
        if !b.mentions x then return .div (← antiderivative x a) b
        else if !a.mentions x then
          return .mul a (← OptionT.mk (.ok (elementary? x (Simplify.pow b (.int (-1))))))
        else failure
      | e => OptionT.mk (.ok (elementary? x e))

/-- The antiderivative of an expression in a variable, if there is one. -/
def antiderivative? (x : String) (e : Expr) : Option Expr :=
  (antiderivative x e).run.toOption.join

end MarketAlgebra
