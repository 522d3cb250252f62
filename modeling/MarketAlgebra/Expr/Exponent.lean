import MarketAlgebra.Expr.Basic

/-!
# Integer exponents

A power is expanded into a polynomial or a rational function only when its exponent is an integer
constant, possibly under negations, and no larger in magnitude than `expansionLimit`.  A constant
counts as an integer exponent when it fits into a signed word of 64 bits.
-/

namespace MarketAlgebra

/-- The largest magnitude of an exponent that is expanded. -/
def expansionLimit : Nat := 512

namespace Expr

/-- The integer that an exponent denotes. -/
def integerExponent? : Expr → Option Int
  | .const c =>
    if c.den = 1 ∧ -(1 <<< 63 : Nat) ≤ c.num ∧ c.num < (1 <<< 63 : Nat) then some c.num else none
  | .neg a => a.integerExponent?.map fun k => -k
  | _ => none

/-- The exponent of a power that is expanded into a polynomial. -/
def naturalExponent? (e : Expr) : Option Nat := do
  let k ← e.integerExponent?
  if 0 ≤ k ∧ k.toNat ≤ expansionLimit then some k.toNat else none

/-- Whether some power in the expression has an integer exponent beyond the limit. -/
def hasLargePower : Expr → Bool
  | .var _ | .const _ => false
  | .add a b | .sub a b | .mul a b | .div a b =>
    a.hasLargePower || b.hasLargePower
  | .pow a b =>
    b.integerExponent?.any (fun k => expansionLimit < k.natAbs)
      || a.hasLargePower || b.hasLargePower
  | .neg a | .call _ a => a.hasLargePower

end Expr

end MarketAlgebra
