import MarketAlgebra.Formula.Scanner
import MarketAlgebra.Text.Blank

/-!
# Shorthand

People write `2Q` for a product and `a / b` for a quotient of two tokens.  `Formula.normalize`
spells such shorthand out, so that the grammar accepts it, in two steps.

1. Where an ASCII digit and an ASCII letter meet, in either order, a `*` is put between them
   (`spellProducts`).
2. Where a run of letters, digits and points is divided by another such run, with any blanks around
   the slash, both runs are put into parentheses and the blanks are dropped (`wrapQuotients`).  The
   text is gone through from left to right, and a run that was used as a denominator is not used
   again as a numerator: `a/b/c` becomes `(a)/(b)/c`.

Nothing else is changed, and any text is accepted.
-/

namespace MarketAlgebra.Formula

/-! ## Products -/

/-- Whether a product sign is missing between two adjacent characters. -/
def adjoins (c d : Char) : Bool :=
  c.isDigit && d.isAlpha || c.isAlpha && d.isDigit

/-- The text with a `*` wherever a digit and a letter meet. -/
def spellProducts : List Char → List Char
  | c :: d :: cs =>
    if adjoins c d then c :: '*' :: spellProducts (d :: cs) else c :: spellProducts (d :: cs)
  | cs => cs

/-! ## Quotients -/

/-- Whether a character can be part of an operand that is put into parentheses. -/
def isOperandChar (c : Char) : Bool := c.isAlphanum || c == '.'

/-- The run of operand characters that a text starts with, and the text after it. -/
def operand (cs : List Char) : List Char × List Char :=
  (cs.takeWhile isOperandChar, cs.dropWhile isOperandChar)

/-- The denominator that follows a numerator, with blanks around the slash, and the text after
it. -/
def denominator? (cs : List Char) : Option (List Char × List Char) :=
  match cs.dropWhile Text.isBlank with
  | '/' :: cs =>
    let (run, rest) := operand (cs.dropWhile Text.isBlank)
    if run.isEmpty then none else some (run, rest)
  | _ => none

theorem length_denominator? {cs run rest : List Char}
    (h : denominator? cs = some (run, rest)) : rest.length ≤ cs.length := by
  unfold denominator? at h
  split at h
  next ds hd =>
    by_cases he : (ds.dropWhile Text.isBlank).takeWhile isOperandChar = []
    · simp [operand, he] at h
    · simp only [operand, List.isEmpty_iff, he, if_false, Option.some.injEq, Prod.mk.injEq] at h
      obtain ⟨-, rfl⟩ := h
      have h₁ := length_dropWhile_le Text.isBlank cs
      have h₂ := length_dropWhile_le Text.isBlank ds
      have h₃ := length_dropWhile_le isOperandChar (ds.dropWhile Text.isBlank)
      simp only [hd, List.length_cons] at h₁
      omega
  · simp at h

/-- The text with the operands of bare quotients in parentheses. -/
def wrapQuotients (cs : List Char) : List Char :=
  match cs with
  | [] => []
  | c :: cs =>
    if isOperandChar c then
      let run := c :: (operand cs).1
      have := length_dropWhile_le isOperandChar cs
      match h : denominator? (operand cs).2 with
      | some (den, rest) =>
        have := length_denominator? h
        '(' :: run ++ ")/(".toList ++ den ++ ')' :: wrapQuotients rest
      | none => run ++ wrapQuotients (operand cs).2
    else c :: wrapQuotients cs
termination_by cs.length
decreasing_by
  all_goals simp only [operand, List.length_cons] at *
  all_goals omega

/-- The text with its shorthand spelt out. -/
def normalize (text : String) : String :=
  String.ofList (wrapQuotients (spellProducts text.toList))

end MarketAlgebra.Formula
