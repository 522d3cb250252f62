import MarketAlgebra.Formula.Scanner

/-!
# Tokens of formulas

A formula is a text over numbers, names, operators and parentheses.  `Formula.tokens` cuts a text
into them.  Each token is as long as possible, and separators may stand between two tokens or
around them.  A text with any other character in it has no tokens.
-/

namespace MarketAlgebra.Formula

/-- A token of a formula. -/
inductive Token where
  | number (value : Rat)
  | name (text : String)
  | plus
  | minus
  | times
  | over
  | power
  | lparen
  | rparen
deriving DecidableEq, Repr

/-- The number that the text starts with, and the text after it. -/
def numberToken? (cs : List Char) : Option (Token × List Char) :=
  (number? cs).map fun p => (.number p.value, p.rest)

theorem numberToken?_eq (cs : List Char) : numberToken? cs =
    if (cs.takeWhile Char.isDigit).isEmpty && (fraction (cs.dropWhile Char.isDigit)).1.isEmpty then
      none
    else some (.number (decimalValue (cs.takeWhile Char.isDigit)
      (fraction (cs.dropWhile Char.isDigit)).1), (fraction (cs.dropWhile Char.isDigit)).2) := by
  unfold numberToken? number?
  simp only
  split <;> rfl

/-- The token that the text starts with, and the text after it. -/
def lexeme? : List Char → Option (Token × List Char)
  | '+' :: cs => some (.plus, cs)
  | '-' :: cs => some (.minus, cs)
  | '*' :: '*' :: cs => some (.power, cs)
  | '*' :: cs => some (.times, cs)
  | '/' :: cs => some (.over, cs)
  | '^' :: cs => some (.power, cs)
  | '(' :: cs => some (.lparen, cs)
  | ')' :: cs => some (.rparen, cs)
  | c :: cs =>
    if c.isAlpha then
      some (.name (String.ofList (c :: cs.takeWhile Char.isAlphanum)),
        cs.dropWhile Char.isAlphanum)
    else numberToken? (c :: cs)
  | [] => none

/-- A token takes at least one character. -/
theorem length_lexeme? {cs rest : List Char} {t : Token} (h : lexeme? cs = some (t, rest)) :
    rest.length < cs.length := by
  unfold lexeme? at h
  split at h
  case h_9 c cs _ _ _ _ _ _ _ _ =>
    split at h
    · obtain ⟨-, rfl⟩ := Prod.mk.inj (Option.some.inj h)
      exact Nat.lt_succ_of_le (length_dropWhile_le _ _)
    · obtain ⟨p, -, heq⟩ := Option.map_eq_some_iff.1 h
      obtain ⟨-, rfl⟩ := Prod.mk.inj heq
      exact p.short
  case h_10 => simp at h
  all_goals
    obtain ⟨-, rfl⟩ := Prod.mk.inj (Option.some.inj h)
    simp only [List.length_cons]
    omega

/-- The tokens of a text, if it consists of tokens and separators only. -/
def tokens (cs : List Char) : Option (List Token) :=
  match cs with
  | [] => some []
  | c :: cs =>
    if isSeparator c then tokens cs
    else
      match h : lexeme? (c :: cs) with
      | none => none
      | some (t, rest) =>
        have := length_lexeme? h
        (tokens rest).map (t :: ·)
termination_by cs.length
decreasing_by
  · exact Nat.lt_succ_self _
  · assumption

end MarketAlgebra.Formula
