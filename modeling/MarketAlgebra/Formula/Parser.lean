import MarketAlgebra.Formula.Scanner

/-!
# Reading formulas

The grammar of formulas:

    sum     = product (("+" | "-") product)*
    product = signed (("*" | "/") signed)*
    signed  = "-" signed | "+" signed | power
    power   = primary [("^" | "**") signed]
    primary = "(" sum ")" | function "(" sum ")" | number | name

Sums and products associate to the left.  A power takes a whole signed part as its exponent, so
powers associate to the right and `-Q^2` negates the square.  The functions are `sqrt`, `sin`,
`cos`, `tan`, `exp`, `log` and `ln`.  Their names are ordinary names where no parenthesis follows.
The square root of `x` is read as `x^(1/2)`, and `log` and `ln` are both the natural logarithm.

Each rule is one function on the characters of the text.  It tries its alternatives in order and
takes the first one that succeeds, and what may be left out is left out where it fails.  So a
failure inside an operand is not one of the rule: behind `Q^)` the power is `Q` and `^)` is left, a
sum leaves an operator that no product follows, and `log(Q` is the name `log` in front of `(Q`.
Only at the end does it show that something was left.
-/

namespace MarketAlgebra.Formula

mutual

/-- A sum. -/
def sum? (cs : List Char) : Option (Parsed Expr cs.length) :=
  match product? cs with
  | none => none
  | some p =>
    have := p.short
    some ((moreTerms p.value p.rest).weaken p.short)
termination_by (cs.length, 5)

/-- The terms that follow the left part of a sum. -/
def moreTerms (left : Expr) (cs : List Char) : Parsed Expr (cs.length + 1) :=
  match spaced termSign? cs with
  | none => ⟨left, cs, Nat.lt_succ_self _⟩
  | some sign =>
    have := sign.short
    match product? sign.rest with
    | none => ⟨left, cs, Nat.lt_succ_self _⟩
    | some p =>
      have := p.short
      (moreTerms (sign.value left p.value) p.rest).weaken
        (Nat.succ_le_succ (Nat.le_of_lt (Nat.lt_trans p.short sign.short)))
termination_by (cs.length, 0)

/-- A product. -/
def product? (cs : List Char) : Option (Parsed Expr cs.length) :=
  match signed? cs with
  | none => none
  | some p =>
    have := p.short
    some ((moreFactors p.value p.rest).weaken p.short)
termination_by (cs.length, 4)

/-- The factors that follow the left part of a product. -/
def moreFactors (left : Expr) (cs : List Char) : Parsed Expr (cs.length + 1) :=
  match spaced factorSign? cs with
  | none => ⟨left, cs, Nat.lt_succ_self _⟩
  | some sign =>
    have := sign.short
    match signed? sign.rest with
    | none => ⟨left, cs, Nat.lt_succ_self _⟩
    | some p =>
      have := p.short
      (moreFactors (sign.value left p.value) p.rest).weaken
        (Nat.succ_le_succ (Nat.le_of_lt (Nat.lt_trans p.short sign.short)))
termination_by (cs.length, 0)

/-- A part with any number of signs in front. -/
def signed? (cs : List Char) : Option (Parsed Expr cs.length) :=
  behindSign? '-' .neg cs <|> behindSign? '+' id cs <|> power? cs
termination_by (cs.length, 3)

/-- A signed part behind a sign, which changes its value. -/
def behindSign? (c : Char) (apply : Expr → Expr) (cs : List Char) :
    Option (Parsed Expr cs.length) :=
  match spaced (char? c) cs with
  | none => none
  | some sign =>
    have := sign.short
    (signed? sign.rest).map fun p =>
      ⟨apply p.value, p.rest, Nat.lt_trans p.short sign.short⟩
termination_by (cs.length, 0)

/-- A primary part with an optional exponent. -/
def power? (cs : List Char) : Option (Parsed Expr cs.length) :=
  match primary? cs with
  | none => none
  | some base =>
    have := base.short
    match spaced powerSign? base.rest with
    | none => some base
    | some sign =>
      have := sign.short
      match signed? sign.rest with
      | none => some base
      | some p => some ⟨.pow base.value p.value, p.rest,
          Nat.lt_trans p.short (Nat.lt_trans sign.short base.short)⟩
termination_by (cs.length, 2)

/-- A sum in parentheses, a call of a function, a number or a name. -/
def primary? (cs : List Char) : Option (Parsed Expr cs.length) :=
  enclosed? cs <|> call? cs <|> (spaced number? cs).map (·.map .const) <|>
    (spaced name? cs).map (·.map .var)
termination_by (cs.length, 1)

/-- A sum in parentheses. -/
def enclosed? (cs : List Char) : Option (Parsed Expr cs.length) :=
  match spaced (char? '(') cs with
  | none => none
  | some opening =>
    have := opening.short
    match sum? opening.rest with
    | none => none
    | some p =>
      (spaced (char? ')') p.rest).map fun closing =>
        ⟨p.value, closing.rest, Nat.lt_trans closing.short (Nat.lt_trans p.short opening.short)⟩
termination_by (cs.length, 0)

/-- A function and its argument in parentheses. -/
def call? (cs : List Char) : Option (Parsed Expr cs.length) :=
  match spaced functionName? cs with
  | none => none
  | some f =>
    have := f.short
    (enclosed? f.rest).map fun p => ⟨f.value p.value, p.rest, Nat.lt_trans p.short f.short⟩
termination_by (cs.length, 0)

end

/-- The expression that a text denotes, if the whole text is one formula. -/
def parse? (text : String) : Option Expr := do
  let p ← sum? (skip text.toList)
  if (skip p.rest).isEmpty then some p.value else none

end MarketAlgebra.Formula
