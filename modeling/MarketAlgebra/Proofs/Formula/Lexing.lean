import Mathlib.Data.List.Basic
import MarketAlgebra.Proofs.Formula.Token

/-!
# Cutting a text into tokens

`tokens` goes through a text one token at a time.  Its equations are stated for each kind of first
character, so later proofs do not unfold the lexer.

A text `Spells` a list of tokens when it is cut into them in front of whatever cannot prolong its
last token.  Texts that spell tokens can be joined by operators and parentheses
(`Spells.join`, `Spells.enclose`), since no operator prolongs a name or a number.
-/

namespace MarketAlgebra.Formula

/-! ## Letters and digits -/

theorem isDigit_iff {c : Char} : c.isDigit = true ↔ 48 ≤ c.toNat ∧ c.toNat ≤ 57 :=
  Char.isDigit_iff_toNat

theorem isAlpha_iff {c : Char} : c.isAlpha = true ↔
    (65 ≤ c.toNat ∧ c.toNat ≤ 90) ∨ (97 ≤ c.toNat ∧ c.toNat ≤ 122) := by
  show (decide (c.val ≥ 'A'.val ∧ c.val ≤ 'Z'.val)
    || (decide (c.val ≥ 'a'.val) && decide (c.val ≤ 'z'.val))) = true ↔ _
  simp only [Bool.or_eq_true, Bool.and_eq_true, decide_eq_true_eq, ge_iff_le,
    UInt32.le_iff_toNat_le]
  exact Iff.rfl

theorem isAlphanum_iff {c : Char} :
    c.isAlphanum = true ↔ c.isAlpha = true ∨ c.isDigit = true := by
  show (c.isAlpha || c.isDigit) = true ↔ _
  exact Bool.or_eq_true_iff

/-- No digit is a letter. -/
theorem isAlpha_eq_false_of_isDigit {c : Char} (h : c.isDigit = true) : c.isAlpha = false := by
  rw [← Bool.not_eq_true, isAlpha_iff]
  rw [isDigit_iff] at h
  omega

/-! ## One token at a time -/

theorem tokens_nil : tokens [] = some [] := by
  rw [tokens]

theorem tokens_separator {c : Char} (h : isSeparator c = true) (cs : List Char) :
    tokens (c :: cs) = tokens cs := by
  rw [tokens, if_pos h]

/-- The first token of a text that does not start with a separator. -/
theorem tokens_cons {c : Char} (h : isSeparator c = false) (cs : List Char) :
    tokens (c :: cs) =
      (lexeme? (c :: cs)).bind fun p => (tokens p.2).map (p.1 :: ·) := by
  rw [tokens, if_neg (by simp [h])]
  split
  next heq => simp [heq]
  next heq => simp [heq]

/-- The operators and parentheses with one character. -/
def operators : List (Char × Token) :=
  [('+', .plus), ('-', .minus), ('*', .times), ('/', .over), ('^', .power), ('(', .lparen),
    (')', .rparen)]

/-- The operator or parenthesis that a character stands for. -/
def operator? (c : Char) : Option Token := operators.lookup c

/-- What holds of every operator is read off the table. -/
theorem operator?_all {c : Char} {t : Token} (h : operator? c = some t) {p : Char × Token → Bool}
    (hp : operators.all p = true) : p (c, t) = true := by
  obtain ⟨_, _, hsplit, -⟩ := List.lookup_eq_some_iff.1 h
  refine List.all_eq_true.1 hp (c, t) ?_
  rw [hsplit]
  simp

/-- Operators cannot be part of a name or a number, and they are no separators. -/
theorem operator?_spec {c : Char} {t : Token} (h : operator? c = some t) :
    c.isAlphanum = false ∧ c ≠ '.' ∧ isSeparator c = false := by
  have hall := operator?_all h (p := fun q => !q.1.isAlphanum && q.1 != '.' && !isSeparator q.1)
    rfl
  simpa [and_assoc] using hall

theorem operator?_eq_none {c : Char} (h : c.isAlphanum = true ∨ c = '.') : operator? c = none := by
  cases ht : operator? c with
  | none => rfl
  | some t =>
    obtain ⟨halphanum, hpoint, -⟩ := operator?_spec ht
    rcases h with h | h
    · rw [halphanum] at h
      cases h
    · exact absurd h hpoint

/-- The first token: two stars, an operator, a name or a number. -/
theorem lexeme?_cons (c : Char) (cs : List Char) : lexeme? (c :: cs) =
    if c = '*' ∧ cs.head? = some '*' then some (.power, cs.tail)
    else (operator? c).elim
      (if c.isAlpha then
        some (.name (String.ofList (c :: cs.takeWhile Char.isAlphanum)),
          cs.dropWhile Char.isAlphanum)
      else numberToken? (c :: cs)) fun t => some (t, cs) := by
  unfold lexeme?
  split
  case h_3 heq =>
    cases heq
    rfl
  case h_4 hnot heq =>
    cases heq
    rw [if_neg]
    · rfl
    · rintro ⟨-, hstar⟩
      obtain ⟨ds, rfl⟩ := List.head?_eq_some_iff.1 hstar
      exact hnot ds rfl
  case h_9 hplus hminus hpower hstar hover hcaret hopen hclose heq =>
    cases heq
    have hnone : operator? c = none := by
      simpa [operator?, operators] using
        ⟨hplus, hminus, hstar, hover, hcaret, hopen, hclose⟩
    rw [if_neg (c := c = '*' ∧ _) fun h => hstar h.1, hnone, Option.elim_none]
  case h_10 heq => cases heq
  all_goals
    rename_i heq
    cases heq
    rfl

/-- How the first token of a text is found. -/
inductive Lexes (c : Char) (cs : List Char) : Token → List Char → Prop where
  | stars {rest : List Char} : c = '*' → cs = '*' :: rest → Lexes c cs .power rest
  | operator {t : Token} :
      operator? c = some t → (c = '*' → cs.head? ≠ some '*') → Lexes c cs t cs
  | name : c.isAlpha = true → Lexes c cs
      (.name (String.ofList (c :: cs.takeWhile Char.isAlphanum))) (cs.dropWhile Char.isAlphanum)
  | number {t : Token} {rest : List Char} : operator? c = none → c.isAlpha = false →
      numberToken? (c :: cs) = some (t, rest) → Lexes c cs t rest

theorem lexes_of_lexeme? {c : Char} {cs rest : List Char} {t : Token}
    (h : lexeme? (c :: cs) = some (t, rest)) : Lexes c cs t rest := by
  rw [lexeme?_cons] at h
  split at h
  case isTrue hstars =>
    obtain ⟨ds, rfl⟩ := List.head?_eq_some_iff.1 hstars.2
    cases h
    exact .stars hstars.1 rfl
  case isFalse hstars =>
    cases hop : operator? c with
    | some u =>
      rw [hop] at h
      cases h
      exact .operator hop fun hc hcs => hstars ⟨hc, hcs⟩
    | none =>
      rw [hop, Option.elim_none] at h
      split at h
      case isTrue halpha =>
        cases h
        exact .name halpha
      case isFalse halpha => exact .number hop (by simpa using halpha) h

theorem lexeme?_of_operator {c : Char} {cs : List Char} {t : Token} (h : operator? c = some t)
    (hcs : c = '*' → cs.head? ≠ some '*') : lexeme? (c :: cs) = some (t, cs) := by
  rw [lexeme?_cons, if_neg fun hstars => hcs hstars.1 hstars.2, h, Option.elim_some]

theorem lexeme?_of_isAlpha {c : Char} (h : c.isAlpha = true) (cs : List Char) :
    lexeme? (c :: cs) = some (.name (String.ofList (c :: cs.takeWhile Char.isAlphanum)),
      cs.dropWhile Char.isAlphanum) := by
  have hstars : ¬(c = '*' ∧ cs.head? = some '*') := by
    rintro ⟨rfl, -⟩
    cases h
  rw [lexeme?_cons, if_neg hstars, operator?_eq_none (.inl (isAlphanum_iff.2 (.inl h))),
    Option.elim_none, if_pos h]

theorem lexeme?_of_numeric {c : Char} (h : c.isDigit = true ∨ c = '.') (cs : List Char) :
    lexeme? (c :: cs) = numberToken? (c :: cs) := by
  have halpha : ¬c.isAlpha = true := by
    rcases h with h | rfl
    · rw [isAlpha_eq_false_of_isDigit h]
      exact Bool.false_ne_true
    · decide
  have hstars : ¬(c = '*' ∧ cs.head? = some '*') := by
    rintro ⟨rfl, -⟩
    rcases h with h | h <;> cases h
  have hop : operator? c = none :=
    operator?_eq_none (h.imp_left fun hd => isAlphanum_iff.2 (.inr hd))
  rw [lexeme?_cons, if_neg hstars, hop, Option.elim_none, if_neg halpha]

/-! ## Runs of characters -/

/-- What follows cannot prolong a name or a number. -/
def Breaks (rest : List Char) : Prop :=
  ∀ c, rest.head? = some c → c.isAlphanum = false ∧ c ≠ '.'

theorem breaks_nil : Breaks [] := by simp [Breaks]

theorem breaks_cons {c : Char} (h : c.isAlphanum = false) (hp : c ≠ '.') (cs : List Char) :
    Breaks (c :: cs) := by
  intro d hd
  cases hd
  exact ⟨h, hp⟩

theorem Breaks.not_isDigit {rest : List Char} (h : Breaks rest) :
    ∀ c, rest.head? = some c → c.isDigit = false := by
  intro c hc
  have hn := (h c hc).1
  rw [← Bool.not_eq_true, isAlphanum_iff] at hn
  simpa using fun hd => hn (.inr hd)

/-- A run ends where what follows is not of its kind. -/
theorem takeWhile_append_of_head {p : Char → Bool} {rest : List Char}
    (h : ∀ c, rest.head? = some c → p c = false) (cs : List Char) :
    (cs ++ rest).takeWhile p = cs.takeWhile p := by
  induction cs with
  | nil =>
    cases rest with
    | nil => rfl
    | cons c rest => simp [h c rfl]
  | cons c cs ih =>
    cases hc : p c with
    | true => simp [hc, ih]
    | false => simp [hc]

theorem dropWhile_append_of_head {p : Char → Bool} {rest : List Char}
    (h : ∀ c, rest.head? = some c → p c = false) (cs : List Char) :
    (cs ++ rest).dropWhile p = cs.dropWhile p ++ rest := by
  induction cs with
  | nil =>
    cases rest with
    | nil => rfl
    | cons c rest => simp [h c rfl]
  | cons c cs ih =>
    cases hc : p c with
    | true => simp [hc, ih]
    | false => simp [hc]

theorem fraction_append {rest : List Char} (h : Breaks rest) (cs : List Char) :
    fraction (cs ++ rest) = ((fraction cs).1, (fraction cs).2 ++ rest) := by
  cases cs with
  | nil =>
    cases rest with
    | nil => rfl
    | cons c rest =>
      simp only [List.nil_append]
      unfold fraction
      split
      next heq =>
        cases heq
        exact absurd rfl (h '.' rfl).2
      next => rfl
  | cons c cs =>
    by_cases hc : c = '.'
    · subst hc
      simp only [List.cons_append, fraction, takeWhile_append_of_head h.not_isDigit,
        dropWhile_append_of_head h.not_isDigit]
    · simp [fraction, hc]

theorem numberToken?_append {rest : List Char} (h : Breaks rest) (cs : List Char) :
    numberToken? (cs ++ rest) = (numberToken? cs).map fun p => (p.1, p.2 ++ rest) := by
  simp only [numberToken?_eq, takeWhile_append_of_head h.not_isDigit,
    dropWhile_append_of_head h.not_isDigit, fraction_append h]
  split <;> rfl

/-- Whether a text starts like a name or a number. -/
def StartsOperand (cs : List Char) : Prop :=
  ∃ c ds, cs = c :: ds ∧ (c.isAlphanum = true ∨ c = '.')

/-- A name or a number is cut off in the same way whatever follows that cannot prolong it. -/
theorem lexeme?_append {cs rest : List Char} (hcs : StartsOperand cs) (h : Breaks rest) :
    lexeme? (cs ++ rest) = (lexeme? cs).map fun p => (p.1, p.2 ++ rest) := by
  obtain ⟨c, ds, rfl, hc⟩ := hcs
  rw [List.cons_append]
  by_cases halpha : c.isAlpha = true
  · have hrest : ∀ c, rest.head? = some c → c.isAlphanum = false := fun c hc => (h c hc).1
    rw [lexeme?_of_isAlpha halpha, lexeme?_of_isAlpha halpha, takeWhile_append_of_head hrest,
      dropWhile_append_of_head hrest]
    rfl
  · have hnum : c.isDigit = true ∨ c = '.' := by
      rcases hc with hc | hc
      · exact .inl ((isAlphanum_iff.1 hc).resolve_left halpha)
      · exact .inr hc
    rw [lexeme?_of_numeric hnum, lexeme?_of_numeric hnum, ← List.cons_append, numberToken?_append h]

theorem StartsOperand.not_separator {c : Char} (h : c.isAlphanum = true ∨ c = '.') :
    isSeparator c = false := by
  rcases h with h | rfl
  · rw [isAlphanum_iff, isAlpha_iff, isDigit_iff] at h
    simp only [isSeparator, Bool.or_eq_false_iff, beq_eq_false_iff_ne]
    refine ⟨⟨⟨?_, ?_⟩, ?_⟩, ?_⟩ <;>
    · rintro rfl
      revert h
      decide
  · decide

/-! ## Texts that spell tokens -/

/-- The text is cut into the tokens, in front of whatever cannot prolong the last one.  It is not
empty and does not start with a star, so a star in front of it stays a product sign. -/
structure Spells (cs : List Char) (ts : List Token) : Prop where
  /-- There is a first character. -/
  nonempty : cs ≠ []
  /-- It is not a star. -/
  no_star : cs.head? ≠ some '*'
  /-- The tokens of the text come first. -/
  append : ∀ {rest us}, Breaks rest → tokens rest = some us → tokens (cs ++ rest) = some (ts ++ us)

theorem Spells.tokens_eq {cs : List Char} {ts : List Token} (h : Spells cs ts) :
    tokens cs = some ts := by
  simpa using h.append breaks_nil tokens_nil

/-- A name or a number spells itself. -/
theorem Spells.of_lexeme? {cs : List Char} {t : Token} (hcs : StartsOperand cs)
    (h : lexeme? cs = some (t, [])) : Spells cs [t] := by
  obtain ⟨c, ds, rfl, hc⟩ := hcs
  refine ⟨by simp, ?_, ?_⟩
  · rintro hstar
    cases hstar
    revert hc
    decide
  · intro rest us hrest hus
    rw [List.cons_append, tokens_cons (StartsOperand.not_separator hc), ← List.cons_append,
      lexeme?_append ⟨c, ds, rfl, hc⟩ hrest, h]
    simp [hus]

/-- An operator, possibly between separators, in front of anything but a star. -/
structure Operates (mid : List Char) (ms : List Token) : Prop where
  /-- There is a first character. -/
  nonempty : mid ≠ []
  /-- The operator ends a name or a number. -/
  breaks : Breaks mid
  /-- The operator comes first. -/
  append : ∀ {rest us}, rest.head? ≠ some '*' → tokens rest = some us →
    tokens (mid ++ rest) = some (ms ++ us)

/-- One character that is an operator, except in front of a star. -/
theorem Operates.single {c : Char} {t : Token} (h : operator? c = some t) : Operates [c] [t] := by
  obtain ⟨hc, hp, hsep⟩ := operator?_spec h
  refine ⟨by simp, breaks_cons hc hp _, ?_⟩
  intro rest us hrest hus
  rw [List.singleton_append, tokens_cons hsep, lexeme?_of_operator h fun _ => hrest]
  simp [hus]

theorem operates_plus : Operates ['+'] [.plus] := .single rfl

theorem operates_minus : Operates ['-'] [.minus] := .single rfl

theorem operates_over : Operates ['/'] [.over] := .single rfl

theorem operates_caret : Operates ['^'] [.power] := .single rfl

theorem operates_star : Operates ['*'] [.times] := .single rfl

/-- Blanks around an operator do not matter. -/
theorem Operates.spaced {c : Char} {t : Token} (h : Operates [c] [t]) :
    Operates [' ', c, ' '] [t] := by
  refine ⟨by simp, breaks_cons rfl (by decide) _, ?_⟩
  intro rest us _ hus
  have hspace : tokens (' ' :: rest) = some us := by rw [tokens_separator rfl, hus]
  have hop : tokens ([c] ++ ' ' :: rest) = some ([t] ++ us) := h.append (by simp) hspace
  rw [show [' ', c, ' '] ++ rest = ' ' :: ([c] ++ ' ' :: rest) by simp,
    tokens_separator rfl, hop]

/-- Two texts with an operator between them. -/
theorem Spells.join {cs ds mid : List Char} {ts us ms : List Token} (h : Spells cs ts)
    (hm : Operates mid ms) (h' : Spells ds us) :
    Spells (cs ++ (mid ++ ds)) (ts ++ (ms ++ us)) := by
  refine ⟨by simp [h.nonempty], ?_, ?_⟩
  · rw [List.head?_append_of_ne_nil _ h.nonempty]
    exact h.no_star
  · intro rest vs hrest hvs
    have hds : tokens (ds ++ rest) = some (us ++ vs) := h'.append hrest hvs
    have hstar : (ds ++ rest).head? ≠ some '*' := by
      rw [List.head?_append_of_ne_nil _ h'.nonempty]
      exact h'.no_star
    have hmid : tokens (mid ++ (ds ++ rest)) = some (ms ++ (us ++ vs)) := hm.append hstar hds
    have hbreaks : Breaks (mid ++ (ds ++ rest)) := by
      intro c hc
      rw [List.head?_append_of_ne_nil _ hm.nonempty] at hc
      exact hm.breaks c hc
    have := h.append hbreaks hmid
    simpa using this

/-- A text behind a minus sign. -/
theorem Spells.negate {cs : List Char} {ts : List Token} (h : Spells cs ts) :
    Spells ('-' :: cs) (.minus :: ts) := by
  refine ⟨by simp, by simp, ?_⟩
  intro rest us hrest hus
  have hcs : tokens (cs ++ rest) = some (ts ++ us) := h.append hrest hus
  have hstar : (cs ++ rest).head? ≠ some '*' := by
    rw [List.head?_append_of_ne_nil _ h.nonempty]
    exact h.no_star
  exact operates_minus.append hstar hcs

/-- A text in parentheses. -/
theorem Spells.enclose {cs : List Char} {ts : List Token} (h : Spells cs ts) :
    Spells ('(' :: (cs ++ [')'])) (.lparen :: (ts ++ [.rparen])) := by
  refine ⟨by simp, by simp, ?_⟩
  intro rest us _ hus
  have hclose : tokens (')' :: rest) = some (.rparen :: us) := by
    rw [tokens_cons rfl]
    simp [lexeme?, hus]
  have hcs := h.append (breaks_cons rfl (by decide) rest) hclose
  rw [List.cons_append, List.append_assoc, tokens_cons rfl]
  simp [lexeme?, hcs]

/-- A name in front of a text in parentheses. -/
theorem Spells.apply {name cs : List Char} {t : Token} {ts : List Token} (hn : Spells name [t])
    (h : Spells cs ts) :
    Spells (name ++ '(' :: (cs ++ [')'])) (t :: .lparen :: (ts ++ [.rparen])) := by
  refine ⟨by simp [hn.nonempty], ?_, ?_⟩
  · rw [List.head?_append_of_ne_nil _ hn.nonempty]
    exact hn.no_star
  · intro rest us hrest hus
    have hcs := h.enclose.append hrest hus
    have := hn.append (breaks_cons rfl (by decide) _) hcs
    simpa using this

end MarketAlgebra.Formula
