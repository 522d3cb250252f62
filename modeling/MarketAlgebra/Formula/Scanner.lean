import MarketAlgebra.Expr.Basic

/-!
# Scanning formulas

What a formula is made of is found at the front of a text: numbers, names, operators and
parentheses, with separators around each of them.  A scanner returns what it found together with
the characters it leaves and a proof that these are fewer (`Formula.Parsed`), which is what every
recursion over a text is founded on.  Letters and digits are the ASCII ones.

* A number is a run of digits, with an optional point and optional digits behind it, or a point
  with digits behind it: `7`, `7.`, `0.25`, `.25`.  Its value is exact, as long as there are fewer
  than `2 ^ 32` digits behind the point: their number is counted in 32 bits.
* A name is a letter followed by letters and digits.
* The operators are `+`, `-`, `*`, `/`, and a power is written `^` or `**`.  The first star of two
  is not a product sign.
-/

namespace MarketAlgebra.Formula

/-- Something found at the front of a text, and fewer than `bound` characters after it. -/
structure Parsed (α : Type) (bound : Nat) where
  /-- What was found. -/
  value : α
  /-- The characters after it. -/
  rest : List Char
  /-- There are fewer of them than `bound`. -/
  short : rest.length < bound

namespace Parsed

variable {α β : Type} {m n : Nat}

/-- The same result under a larger bound. -/
def weaken (p : Parsed α m) (h : m ≤ n) : Parsed α n :=
  ⟨p.value, p.rest, Nat.lt_of_lt_of_le p.short h⟩

/-- Another value in front of the same characters. -/
def map (f : α → β) (p : Parsed α n) : Parsed β n := ⟨f p.value, p.rest, p.short⟩

end Parsed

/-! ## Separators -/

/-- The characters that may stand between the parts of a formula: space, tabulator, line feed and
carriage return. -/
def isSeparator (c : Char) : Bool :=
  c == ' ' || c == '\t' || c == '\n' || c == '\r'

/-- The text without the separators in front. -/
def skip (cs : List Char) : List Char := cs.dropWhile isSeparator

theorem length_dropWhile_le {α : Type} (p : α → Bool) (xs : List α) :
    (xs.dropWhile p).length ≤ xs.length :=
  (List.dropWhile_sublist p).length_le

/-- A scanner with separators around what it finds. -/
def spaced {α : Type} (scan : (cs : List Char) → Option (Parsed α cs.length)) (cs : List Char) :
    Option (Parsed α cs.length) :=
  (scan (skip cs)).map fun p => ⟨p.value, skip p.rest,
    Nat.lt_of_le_of_lt (length_dropWhile_le _ _)
      (Nat.lt_of_lt_of_le p.short (length_dropWhile_le _ _))⟩

/-! ## Numbers -/

/-- The natural that a run of digits denotes. -/
def digitsValue (ds : List Char) : Nat :=
  ds.foldl (fun n d => 10 * n + (d.toNat - '0'.toNat)) 0

/-- How many digits are taken to stand behind the point. -/
def countedPlaces (n : Nat) : Nat := n % UInt32.size

/-- The value of a decimal with the given digits before and behind the point. -/
def decimalValue (whole behind : List Char) : Rat :=
  mkRat (digitsValue (whole ++ behind)) (Nat.pow 10 (countedPlaces behind.length))

/-- The digits behind a point that the text starts with, and the text after them.  Without a point
there are none. -/
def fraction : List Char → List Char × List Char
  | '.' :: cs => (cs.takeWhile Char.isDigit, cs.dropWhile Char.isDigit)
  | cs => ([], cs)

theorem length_fraction_le (cs : List Char) : (fraction cs).2.length ≤ cs.length := by
  unfold fraction
  split
  · exact Nat.le_succ_of_le (length_dropWhile_le _ _)
  · exact Nat.le_refl _

/-- Digits behind the point are only found where something is read. -/
theorem length_fraction_lt {cs : List Char} (h : (fraction cs).1 ≠ []) :
    (fraction cs).2.length < cs.length := by
  unfold fraction at h ⊢
  split
  · exact Nat.lt_succ_of_le (length_dropWhile_le _ _)
  · simp_all

/-- A number takes at least one digit. -/
theorem length_number_lt {cs : List Char}
    (h : ¬((cs.takeWhile Char.isDigit).isEmpty &&
      (fraction (cs.dropWhile Char.isDigit)).1.isEmpty) = true) :
    (fraction (cs.dropWhile Char.isDigit)).2.length < cs.length := by
  simp only [Bool.and_eq_true, List.isEmpty_iff, not_and] at h
  by_cases hw : cs.takeWhile Char.isDigit = []
  · exact Nat.lt_of_lt_of_le (length_fraction_lt (h hw)) (length_dropWhile_le _ _)
  · have hsplit := congrArg List.length (List.takeWhile_append_dropWhile (p := Char.isDigit)
      (l := cs))
    have hpos := List.length_pos_iff.2 hw
    have hle := length_fraction_le (cs.dropWhile Char.isDigit)
    simp only [List.length_append] at hsplit
    omega

/-- A number. -/
def number? (cs : List Char) : Option (Parsed Rat cs.length) :=
  let whole := cs.takeWhile Char.isDigit
  let behind := fraction (cs.dropWhile Char.isDigit)
  if h : whole.isEmpty && behind.1.isEmpty then none
  else some ⟨decimalValue whole behind.1, behind.2, length_number_lt h⟩

/-! ## Names -/

/-- A name. -/
def name? : (cs : List Char) → Option (Parsed String cs.length)
  | [] => none
  | c :: cs =>
    if c.isAlpha then
      some ⟨String.ofList (c :: cs.takeWhile Char.isAlphanum), cs.dropWhile Char.isAlphanum,
        Nat.lt_succ_of_le (length_dropWhile_le _ _)⟩
    else none

/-! ## Operators and parentheses -/

/-- A given character. -/
def char? (c : Char) : (cs : List Char) → Option (Parsed Unit cs.length)
  | [] => none
  | d :: cs => if d = c then some ⟨(), cs, Nat.lt_succ_self _⟩ else none

/-- A sign between the terms of a sum. -/
def termSign? : (cs : List Char) → Option (Parsed (Expr → Expr → Expr) cs.length)
  | '+' :: cs => some ⟨.add, cs, Nat.lt_succ_self _⟩
  | '-' :: cs => some ⟨.sub, cs, Nat.lt_succ_self _⟩
  | _ => none

/-- A sign between the factors of a product. -/
def factorSign? : (cs : List Char) → Option (Parsed (Expr → Expr → Expr) cs.length)
  | '*' :: '*' :: _ => none
  | '*' :: cs => some ⟨.mul, cs, Nat.lt_succ_self _⟩
  | '/' :: cs => some ⟨.div, cs, Nat.lt_succ_self _⟩
  | _ => none

/-- The sign of a power. -/
def powerSign? : (cs : List Char) → Option (Parsed Unit cs.length)
  | '*' :: '*' :: cs => some ⟨(), cs, Nat.lt_succ_of_lt (Nat.lt_succ_self _)⟩
  | '^' :: cs => some ⟨(), cs, Nat.lt_succ_self _⟩
  | _ => none

/-! ## Functions -/

/-- The functions, in the order in which they are tried. -/
def functions : List (String × (Expr → Expr)) :=
  [("sqrt", Expr.sqrt), ("sin", .call .sin), ("cos", .call .cos), ("tan", .call .tan),
    ("exp", .call .exp), ("log", .call .log), ("ln", .call .log)]

theorem length_drop_lt {α : Type} [BEq α] {ws cs : List α} (h : ws.isPrefixOf cs = true)
    (hne : ws ≠ []) : (cs.drop ws.length).length < cs.length := by
  cases ws with
  | nil => exact absurd rfl hne
  | cons w ws =>
    cases cs with
    | nil => cases h
    | cons c cs => simp only [List.length_drop, List.length_cons]; omega

/-- The first function whose name the text starts with. -/
def functionName? (cs : List Char) : Option (Parsed (Expr → Expr) cs.length) :=
  functions.findSome? fun f =>
    if h : f.1.toList.isPrefixOf cs = true ∧ f.1.toList ≠ [] then
      some ⟨f.2, cs.drop f.1.toList.length, length_drop_lt h.1 h.2⟩
    else none

end MarketAlgebra.Formula
