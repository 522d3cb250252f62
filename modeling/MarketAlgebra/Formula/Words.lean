import MarketAlgebra.Text.Alphanumeric

/-!
# Words of a text

Before a text is parsed it is searched for a word.  The words of a text are the pieces between the
characters that are neither letters nor digits of any script nor underscores.  Two such characters
in a row have an empty word between them, and the text starts and ends with a word.
-/

namespace MarketAlgebra.Formula

/-- Whether a character belongs to a word. -/
def isWordChar (c : Char) : Bool := Text.isAlphanumeric c || c == '_'

/-- The words of a text, the empty ones included. -/
def words : List Char → List (List Char)
  | [] => [[]]
  | c :: cs =>
    if isWordChar c then
      match words cs with
      | w :: ws => (c :: w) :: ws
      | [] => [[c]]
    else [] :: words cs

/-- Whether a word occurs in a text. -/
def hasWord (text word : String) : Bool := (words text.toList).contains word.toList

example : hasWord "2*Q + 1" "Q" ∧ ¬ hasWord "Qty + 1" "Q" ∧ hasWord "" "" := by decide +kernel

end MarketAlgebra.Formula
