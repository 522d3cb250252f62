import MarketAlgebra.Expr.Basic

/-!
# Expressions as text

`Expr.text` writes an expression in infix form with few parentheses.  Its rules:

* A part is put into parentheses when it binds less tightly than its place asks
  (`bracket`).  The places are numbered: `0` stands alone, `1` is the left side of a sum, `2` the
  right side of a sum or a factor, `3` a denominator, and `4` a part of a power or the part that
  a negation applies to.
* The sign of a negated or negative right side joins the operator of a sum, so `Q + -3` is written
  `Q-3`.  The signs of the parts of a product or quotient are taken out, and an odd number of them
  is written in front: `-(3 / Q)`.
* A product with a reciprocal reads as a quotient: `c * (1 / d)` is `c / d`.
* A constant that is not an integer is a quotient without blanks, `3/2`, while the quotient of two
  expressions is written with them, `Q / 2`.
* The power with exponent `1/2` is a call of `sqrt`.
-/

namespace MarketAlgebra

/-- A rational in lowest terms, with its denominator unless that is one. -/
def ratText (q : Rat) : String :=
  if q.den = 1 then toString q.num else toString q.num ++ "/" ++ toString q.den

/-- A text in parentheses when its own level is below that of its place. -/
def bracket (place level : Nat) (text : String) : String :=
  if level < place then "(" ++ text ++ ")" else text

/-- The name of a function in formulas. -/
def Fn.name : Fn → String
  | .sin => "sin"
  | .cos => "cos"
  | .tan => "tan"
  | .exp => "exp"
  | .log => "log"

namespace Expr

/-- Whether an expression shows a sign that can be taken out: a negation or a negative constant. -/
def signed : Expr → Bool
  | .neg _ => true
  | .const c => c < 0
  | _ => false

/-- The expression without the sign that `signed` reports. -/
def unsigned : Expr → Expr
  | .neg a => a
  | .const c => if c < 0 then .const (-c) else .const c
  | e => e

theorem size_unsigned_le (e : Expr) : e.unsigned.size ≤ e.size := by
  cases e with
  | const c => by_cases h : c < 0 <;> simp [unsigned, h, size]
  | neg a => simp [unsigned, size]
  | _ => simp [unsigned]

/-- The denominator of an expression of the form `1 / d`. -/
def reciprocal? : Expr → Option Expr
  | .div n d => if n.isOne then some d else none
  | _ => none

theorem size_lt_of_reciprocal? {e d : Expr} (h : e.reciprocal? = some d) : d.size < e.size := by
  cases e <;> simp [reciprocal?] at h
  case div n d' =>
    obtain ⟨-, rfl⟩ := h
    exact Nat.lt_succ_of_le (Nat.le_add_left _ _)

/-- The text of a constant in a place. -/
def constText (place : Nat) (c : Rat) : String :=
  if c.den = 1 then if 0 ≤ c then ratText c else bracket place 3 (ratText c)
  else bracket place 2 (ratText c)

/-- The text of an expression in a place. -/
def textIn (place : Nat) : Expr → String
  | .var x => x
  | .const c => constText place c
  | .add a b =>
    have := b.size_unsigned_le
    bracket place 1 (a.textIn 1 ++ (if b.signed then "-" else "+") ++ b.unsigned.textIn 2)
  | .sub a b =>
    have := b.size_unsigned_le
    bracket place 1 (a.textIn 1 ++ (if b.signed then "+" else "-") ++ b.unsigned.textIn 2)
  | .mul a b =>
    have := a.size_unsigned_le
    have := b.size_unsigned_le
    let body :=
      match h : b.unsigned.reciprocal? with
      | some d =>
        have := size_lt_of_reciprocal? h
        a.unsigned.textIn 2 ++ " / " ++ d.textIn 3
      | none => a.unsigned.textIn 2 ++ "*" ++ b.unsigned.textIn 2
    bracket place 2 (if a.signed != b.signed then "-(" ++ body ++ ")" else body)
  | .div a b =>
    have := a.size_unsigned_le
    have := b.size_unsigned_le
    let body := a.unsigned.textIn 2 ++ " / " ++ b.unsigned.textIn 3
    bracket place 2 (if a.signed != b.signed then "-(" ++ body ++ ")" else body)
  | .pow a b =>
    if b = .const (1 / 2) then "sqrt(" ++ a.textIn 0 ++ ")"
    else bracket place 3 (a.textIn 4 ++ "^" ++ b.textIn 4)
  | .neg a =>
    have := a.size_unsigned_le
    (if a.signed then "" else "-") ++ a.unsigned.textIn 4
  | .call f a => f.name ++ "(" ++ a.textIn 0 ++ ")"
termination_by e => e.size
decreasing_by all_goals grind [size]

/-- The text of an expression that stands alone. -/
def text (e : Expr) : String := e.textIn 0

end Expr

end MarketAlgebra
