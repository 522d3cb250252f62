import Mathlib.Data.List.TakeWhile
import MarketAlgebra.Expr.Printer
import MarketAlgebra.Proofs.Formula.Grammar
import MarketAlgebra.Proofs.Formula.Lexing
import MarketAlgebra.Proofs.Value

/-!
# Texts that write expressions

A text is `Readable` under a rule of the grammar when it spells tokens from which that rule derives
an expression, and the expression has some property.  Operators, calls and parentheses make such
texts from others, with one lemma each.  The text of a rational is read as a `Literal`, an
expression that writes this rational out in natural numbers.

A text `Writes` an expression when the property is to have the same values.  Then a product may
follow a product sign without parentheses, since both readings have the same values
(`Writes.times`).

`Level.ofPlace` is the rule that reads a place of the printer, and `Readable.bracket` says that the
parentheses the printer sets are enough.
-/

namespace MarketAlgebra.Formula

open MarketAlgebra.Expr (Same)

/-! ## Texts that are read -/

/-- By a rule of the grammar, the text is read as an expression with the property. -/
def Readable (l : Level) (text : String) (P : Expr → Prop) : Prop :=
  ∃ ts d, Spells text.toList ts ∧ Derives l ts d ∧ P d

section

variable {l : Level} {p q : String} {P Q R : Expr → Prop}

theorem Readable.mono (h : Readable l p P) (hPQ : ∀ {d}, P d → Q d) : Readable l p Q := by
  obtain ⟨ts, d, hp, hd, hP⟩ := h
  exact ⟨ts, d, hp, hd, hPQ hP⟩

theorem Readable.parse? (h : Readable .sum p P) : ∃ d, parse? p = some d ∧ P d := by
  obtain ⟨ts, d, hp, hd, hP⟩ := h
  exact ⟨d, parse?_eq_some_iff.2 ⟨ts, hp.tokens_eq, hd⟩, hP⟩

theorem Readable.power (h : Readable .primary p P) : Readable .power p P := by
  obtain ⟨ts, d, hp, hd, hP⟩ := h
  exact ⟨ts, d, hp, .ofPrimary hd, hP⟩

theorem Readable.signed (h : Readable .power p P) : Readable .signed p P := by
  obtain ⟨ts, d, hp, hd, hP⟩ := h
  exact ⟨ts, d, hp, .ofPower hd, hP⟩

theorem Readable.product (h : Readable .signed p P) : Readable .product p P := by
  obtain ⟨ts, d, hp, hd, hP⟩ := h
  exact ⟨ts, d, hp, .ofSigned hd, hP⟩

theorem Readable.sum (h : Readable .product p P) : Readable .sum p P := by
  obtain ⟨ts, d, hp, hd, hP⟩ := h
  exact ⟨ts, d, hp, .ofProduct hd, hP⟩

theorem Readable.plus (ha : Readable .sum p P) (hb : Readable .product q Q)
    (h : ∀ {a b}, P a → Q b → R (.add a b)) : Readable .sum (p ++ "+" ++ q) R := by
  obtain ⟨ts, a, hp, ha, hP⟩ := ha
  obtain ⟨us, b, hq, hb, hQ⟩ := hb
  refine ⟨_, _, ?_, .plus ha hb, h hP hQ⟩
  simpa using hp.join operates_plus hq

theorem Readable.minus (ha : Readable .sum p P) (hb : Readable .product q Q)
    (h : ∀ {a b}, P a → Q b → R (.sub a b)) : Readable .sum (p ++ "-" ++ q) R := by
  obtain ⟨ts, a, hp, ha, hP⟩ := ha
  obtain ⟨us, b, hq, hb, hQ⟩ := hb
  refine ⟨_, _, ?_, .minus ha hb, h hP hQ⟩
  simpa using hp.join operates_minus hq

theorem Readable.times (ha : Readable .product p P) (hb : Readable .signed q Q)
    (h : ∀ {a b}, P a → Q b → R (.mul a b)) : Readable .product (p ++ "*" ++ q) R := by
  obtain ⟨ts, a, hp, ha, hP⟩ := ha
  obtain ⟨us, b, hq, hb, hQ⟩ := hb
  refine ⟨_, _, ?_, .times ha hb, h hP hQ⟩
  simpa using hp.join operates_star hq

theorem Readable.over (ha : Readable .product p P) (hb : Readable .signed q Q)
    (h : ∀ {a b}, P a → Q b → R (.div a b)) : Readable .product (p ++ "/" ++ q) R := by
  obtain ⟨ts, a, hp, ha, hP⟩ := ha
  obtain ⟨us, b, hq, hb, hQ⟩ := hb
  refine ⟨_, _, ?_, .divided ha hb, h hP hQ⟩
  simpa using hp.join operates_over hq

theorem Readable.spacedOver (ha : Readable .product p P) (hb : Readable .signed q Q)
    (h : ∀ {a b}, P a → Q b → R (.div a b)) : Readable .product (p ++ " / " ++ q) R := by
  obtain ⟨ts, a, hp, ha, hP⟩ := ha
  obtain ⟨us, b, hq, hb, hQ⟩ := hb
  refine ⟨_, _, ?_, .divided ha hb, h hP hQ⟩
  simpa using hp.join operates_over.spaced hq

theorem Readable.raise (ha : Readable .primary p P) (hb : Readable .signed q Q)
    (h : ∀ {a b}, P a → Q b → R (.pow a b)) : Readable .power (p ++ "^" ++ q) R := by
  obtain ⟨ts, a, hp, ha, hP⟩ := ha
  obtain ⟨us, b, hq, hb, hQ⟩ := hb
  refine ⟨_, _, ?_, .raise ha hb, h hP hQ⟩
  simpa using hp.join operates_caret hq

theorem Readable.negative (ha : Readable .signed p P) (h : ∀ {a}, P a → Q (.neg a)) :
    Readable .signed ("-" ++ p) Q := by
  obtain ⟨ts, a, hp, ha, hP⟩ := ha
  refine ⟨_, _, ?_, .negative ha, h hP⟩
  simpa using hp.negate

theorem Readable.enclose (h : Readable .sum p P) : Readable .primary ("(" ++ p ++ ")") P := by
  obtain ⟨ts, d, hp, hd, hP⟩ := h
  refine ⟨_, d, ?_, .enclose hd, hP⟩
  simpa using hp.enclose

end

/-! ## Texts that write expressions -/

/-- The text is read as an expression with the same values. -/
def Writes (l : Level) (text : String) (e : Expr) : Prop :=
  ∃ ts d, Spells text.toList ts ∧ Derives l ts d ∧ Same d e

section

variable {l : Level} {p q : String} {a b e : Expr}

theorem writes_iff : Writes l p e ↔ Readable l p (Same · e) := Iff.rfl

theorem Writes.same (h : Writes l p a) (hab : Same a b) : Writes l p b :=
  (writes_iff.1 h).mono fun hs => hs.trans hab

/-- What is written alone is what is read. -/
theorem Writes.parse? (h : Writes .sum p e) : ∃ d, parse? p = some d ∧ Same d e :=
  (writes_iff.1 h).parse?

theorem Writes.power (h : Writes .primary p e) : Writes .power p e := (writes_iff.1 h).power

theorem Writes.signed (h : Writes .power p e) : Writes .signed p e := (writes_iff.1 h).signed

theorem Writes.plus (ha : Writes .sum p a) (hb : Writes .product q b) :
    Writes .sum (p ++ "+" ++ q) (.add a b) :=
  (writes_iff.1 ha).plus (writes_iff.1 hb) Same.add

theorem Writes.minus (ha : Writes .sum p a) (hb : Writes .product q b) :
    Writes .sum (p ++ "-" ++ q) (.sub a b) :=
  (writes_iff.1 ha).minus (writes_iff.1 hb) Same.sub

theorem Writes.spacedOver (ha : Writes .product p a) (hb : Writes .signed q b) :
    Writes .product (p ++ " / " ++ q) (.div a b) :=
  (writes_iff.1 ha).spacedOver (writes_iff.1 hb) Same.div

theorem Writes.raise (ha : Writes .primary p a) (hb : Writes .signed q b) :
    Writes .power (p ++ "^" ++ q) (.pow a b) :=
  (writes_iff.1 ha).raise (writes_iff.1 hb) Same.pow

theorem Writes.negative (h : Writes .signed p a) : Writes .signed ("-" ++ p) (.neg a) :=
  (writes_iff.1 h).negative Same.neg

end

/-! ## Products -/

/-- A product whose right factor is written without parentheses is read from left to right, as a
product of all the factors. -/
theorem Derives.times_product {ts us : List Token} {a b : Expr} (ha : Derives .product ts a)
    {l : Level} (hb : Derives l us b) (hl : l = .product) :
    ∃ c, Derives .product (ts ++ .times :: us) c ∧ Same c (.mul a b) := by
  induction hb with
  | ofSigned hb => exact ⟨_, .times ha hb, Same.refl _⟩
  | @times us vs b c _ hc ih _ =>
    obtain ⟨d, hd, hs⟩ := ih rfl
    refine ⟨.mul d c, ?_, (hs.mul (Same.refl c)).trans ?_⟩
    · simpa using Derives.times hd hc
    · exact .of_real_eq (fun s => by simp only [Expr.Defined, and_assoc])
        fun s => mul_assoc _ _ _
  | @divided us vs b c _ hc ih _ =>
    obtain ⟨d, hd, hs⟩ := ih rfl
    refine ⟨.div d c, ?_, (hs.div (Same.refl c)).trans ?_⟩
    · simpa using Derives.divided hd hc
    · exact .of_real_eq (fun s => by simp only [Expr.Defined, and_assoc])
        fun s => mul_div_assoc _ _ _
  | _ => cases hl

theorem Writes.times {p q : String} {a b : Expr} (ha : Writes .product p a)
    (hb : Writes .product q b) : Writes .product (p ++ "*" ++ q) (.mul a b) := by
  obtain ⟨ts, c, hp, hc, hca⟩ := ha
  obtain ⟨us, d, hq, hd, hdb⟩ := hb
  obtain ⟨f, hf, hs⟩ := hc.times_product hd rfl
  refine ⟨_, f, ?_, hf, hs.trans (hca.mul hdb)⟩
  simpa using hp.join operates_star hq

/-! ## Names and numbers -/

/-- A letter followed by letters and digits. -/
def IsName (x : String) : Prop :=
  ∃ c cs, x.toList = c :: cs ∧ c.isAlpha = true ∧ cs.all Char.isAlphanum = true

theorem IsName.spells {x : String} (h : IsName x) : Spells x.toList [.name x] := by
  obtain ⟨c, cs, hx, hc, hcs⟩ := h
  rw [List.all_eq_true] at hcs
  rw [hx]
  refine .of_lexeme? ⟨c, cs, rfl, .inl (isAlphanum_iff.2 (.inl hc))⟩ ?_
  rw [lexeme?_of_isAlpha hc, List.takeWhile_eq_self_iff.2 hcs,
    List.dropWhile_eq_nil_iff.2 hcs, ← hx,
    String.ofList_toList]

theorem IsName.writes {x : String} (h : IsName x) : Writes .primary x (.var x) :=
  ⟨_, _, h.spells, .name x, Same.refl _⟩

/-- The name of a function in front of its argument. -/
theorem Writes.apply {x p : String} {e : Expr} {f : Expr → Expr} (hx : IsName x)
    (hf : function? x = some f) (hsame : ∀ {a b}, Same a b → Same (f a) (f b))
    (h : Writes .sum p e) : Writes .primary (x ++ "(" ++ p ++ ")") (f e) := by
  obtain ⟨ts, d, hp, hd, hs⟩ := h
  refine ⟨_, f d, ?_, .call hf hd, hsame hs⟩
  simpa using hx.spells.apply hp

theorem digitsValue_toDigits (n : ℕ) : digitsValue (Nat.toDigits 10 n) = n := by
  rw [digitsValue, ← Nat.ofDigitChars_eq_foldl]
  exact Nat.ofDigitChars_ten_toDigits

/-- A natural is read from its digits. -/
theorem numberToken?_toDigits (n : ℕ) :
    numberToken? (Nat.toDigits 10 n) = some (.number n, []) := by
  have hdigits : ∀ c ∈ Nat.toDigits 10 n, c.isDigit = true :=
    fun c hc => Nat.isDigit_of_mem_toDigits (by decide) (by decide) hc
  have hvalue : decimalValue (Nat.toDigits 10 n) [] = n := by
    rw [decimalValue, List.append_nil, digitsValue_toDigits]
    exact Rat.mkRat_one n
  simp [numberToken?_eq, List.takeWhile_eq_self_iff.2 hdigits,
    List.dropWhile_eq_nil_iff.2 hdigits, fraction, hvalue,
    Nat.toDigits_ne_nil]

theorem spells_nat (n : ℕ) : Spells (toString n).toList [.number n] := by
  rw [Nat.toString_eq_repr, Nat.toList_repr]
  obtain ⟨c, cs, hcs⟩ := List.exists_cons_of_ne_nil (Nat.toDigits_ne_nil (n := n) (b := 10))
  have hc : c.isDigit = true :=
    Nat.isDigit_of_mem_toDigits (n := n) (b := 10) (by decide) (by decide) (by simp [hcs])
  refine .of_lexeme? ⟨c, cs, hcs, .inl (isAlphanum_iff.2 (.inr hc))⟩ ?_
  rw [hcs, lexeme?_of_numeric (.inl hc), ← hcs, numberToken?_toDigits]

/-- The expression writes a rational out in natural numbers. -/
inductive Literal : Expr → Rat → Prop
  | number (n : ℕ) : Literal (.const n) n
  | negative {e : Expr} {q : Rat} : Literal e q → Literal (.neg e) (-q)
  | quotient {a b : Expr} {q r : Rat} :
      Literal a q → Literal b r → r ≠ 0 → Literal (.div a b) (q / r)

theorem Literal.hasValue {e : Expr} {q : Rat} (h : Literal e q) (s : String → ℝ) :
    e.HasValue s q := by
  induction h with
  | number n => exact ⟨trivial, rfl⟩
  | negative _ ih => exact ⟨ih.1, by rw [Expr.real, ih.2, Rat.cast_neg]⟩
  | quotient _ _ hr iha ihb =>
    refine ⟨⟨iha.1, ihb.1, by rw [ihb.2]; exact Rat.cast_ne_zero.2 hr⟩, ?_⟩
    rw [Expr.real, iha.2, ihb.2, Rat.cast_div]

theorem Literal.same {e : Expr} {q : Rat} (h : Literal e q) : Same e (.const q) :=
  .of_real_eq (fun s => iff_of_true (h.hasValue s).1 trivial) fun s => (h.hasValue s).2

theorem readable_nat (n : ℕ) : Readable .primary (toString n) (· = .const n) :=
  ⟨_, _, spells_nat n, .number n, rfl⟩

theorem readable_literal (n : ℕ) : Readable .primary (toString n) (Literal · n) :=
  (readable_nat n).mono fun h => h ▸ .number n

/-- An integer shows its sign. -/
theorem readable_int (n : ℤ) : Readable .signed (toString n) (Literal · n) := by
  cases n with
  | ofNat m => exact (readable_literal m).power.signed
  | negSucc m =>
    rw [Int.cast_negSucc]
    exact (readable_literal m.succ).power.signed.negative .negative

/-- A rational that is not an integer is a quotient. -/
theorem readable_ratText (q : Rat) : Readable .product (ratText q) (Literal · q) := by
  rw [ratText]
  split
  next hden =>
    have hq : (q.num : Rat) = q := (Rat.den_eq_one_iff q).1 hden
    have hnum := (readable_int q.num).product
    rwa [hq] at hnum
  next =>
    refine (readable_int q.num).product.over (readable_literal q.den).power.signed fun ha hb => ?_
    have hquotient := ha.quotient hb (Nat.cast_ne_zero.2 q.den_ne_zero)
    rwa [Rat.num_div_den] at hquotient

/-! ## Places -/

/-- The rule under which a text without parentheses is read in a place. -/
def Level.ofPlace : Nat → Level
  | 0 | 1 => .sum
  | 2 => .product
  | 3 => .signed
  | _ => .primary

section

variable {p : String} {P Q : Expr → Prop} {e : Expr} {place level : Nat}

theorem Readable.ofPlace_succ (h : Readable (.ofPlace (place + 1)) p P) :
    Readable (.ofPlace place) p P := by
  match place with
  | 0 => exact h
  | 1 => exact h.sum
  | 2 => exact h.product
  | 3 => exact h.power.signed
  | _ + 4 => exact h

/-- What binds tightly enough for a place can stand in it. -/
theorem Readable.ofPlace_of_le (hle : place ≤ level) (h : Readable (.ofPlace level) p P) :
    Readable (.ofPlace place) p P := by
  induction hle with
  | refl => exact h
  | step _ ih => exact ih h.ofPlace_succ

theorem Readable.ofPlace (h : Readable .primary p P) (place : Nat) :
    Readable (.ofPlace place) p P :=
  Readable.ofPlace_of_le (Nat.le_add_right place 4) h

theorem bracket_of_le (h : place ≤ level) (p : String) : bracket place level p = p :=
  if_neg (Nat.not_lt.2 h)

/-- Parentheses let every text stand in every place. -/
theorem Readable.bracket (place level : Nat) (h : Readable (.ofPlace level) p P) :
    Readable (.ofPlace place) (bracket place level p) P := by
  by_cases hlt : level < place
  · rw [MarketAlgebra.bracket, if_pos hlt]
    exact (h.ofPlace_of_le (Nat.zero_le level)).enclose.ofPlace place
  · have hle := Nat.le_of_not_lt hlt
    rw [bracket_of_le hle]
    exact h.ofPlace_of_le hle

/-- The sign of a product or a quotient stands in front of its parentheses. -/
theorem Readable.signedProduct {flip : Bool} (h : Readable .product p P)
    (hpos : flip = false → ∀ {a}, P a → Q a) (hneg : flip = true → ∀ {a}, P a → Q (.neg a)) :
    Readable .product (if flip then "-(" ++ p ++ ")" else p) Q := by
  cases flip with
  | false => exact h.mono (hpos rfl)
  | true =>
    have hsigned := (h.sum.enclose.power.signed.negative (hneg rfl)).product
    rwa [show "-" ++ ("(" ++ p ++ ")") = "-(" ++ p ++ ")" by
      rw [← String.append_assoc, ← String.append_assoc]; rfl] at hsigned

theorem Writes.ofPlace_of_le (hle : place ≤ level) (h : Writes (.ofPlace level) p e) :
    Writes (.ofPlace place) p e :=
  (writes_iff.1 h).ofPlace_of_le hle

theorem Writes.ofPlace (h : Writes .primary p e) (place : Nat) : Writes (.ofPlace place) p e :=
  (writes_iff.1 h).ofPlace place

theorem Writes.bracket (place level : Nat) (h : Writes (.ofPlace level) p e) :
    Writes (.ofPlace place) (bracket place level p) e :=
  (writes_iff.1 h).bracket place level

theorem Writes.signedProduct (h : Writes .product p e) (place : Nat) (flip : Bool) :
    Writes (.ofPlace place)
      (MarketAlgebra.bracket place 2 (if flip then "-(" ++ p ++ ")" else p))
      (if flip then .neg e else e) := by
  refine Writes.bracket place 2 ((writes_iff.1 h).signedProduct ?_ ?_)
  · rintro rfl a ha
    exact ha
  · rintro rfl a ha
    exact ha.neg

end

/-- The text of a constant. -/
theorem readable_constText (place : Nat) (c : Rat) :
    Readable (.ofPlace place) (Expr.constText place c) (Literal · c) := by
  rw [Expr.constText]
  split
  next hden =>
    have hc : (c.num : Rat) = c := (Rat.den_eq_one_iff c).1 hden
    have hnum : ratText c = toString c.num := by rw [ratText, if_pos hden]
    rw [hnum]
    split
    next h =>
      obtain ⟨m, hm⟩ := Int.eq_ofNat_of_zero_le (Rat.num_nonneg.2 h)
      rw [← hc, hm]
      exact (readable_literal m).ofPlace place
    next =>
      have hint := readable_int c.num
      rw [hc] at hint
      exact Readable.bracket place 3 hint
  next => exact Readable.bracket place 2 (readable_ratText c)

theorem writes_constText (place : Nat) (c : Rat) :
    Writes (.ofPlace place) (Expr.constText place c) (.const c) :=
  (readable_constText place c).mono Literal.same

end MarketAlgebra.Formula
