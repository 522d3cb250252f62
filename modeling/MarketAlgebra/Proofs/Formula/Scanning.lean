import Mathlib.Data.List.TakeWhile
import MarketAlgebra.Formula.Parser
import MarketAlgebra.Proofs.Formula.Lexing

/-!
# What the scanners find

The parser works on the characters of a text.  Each of its scanners looks for one kind of token
(`Finds`): it finds the first token of the text if that is of its kind, and nothing otherwise.  So
a scanner with separators around it is a question to the first token (`front`).

The names of functions are the exception, since they are looked for as the characters a text starts
with, also where these are part of a longer name.  In front of a parenthesis this makes no
difference (`front_of_functionName?`).
-/

namespace MarketAlgebra.Formula

/-- What was found and what is left. -/
def Parsed.pair {α : Type} {n : Nat} (p : Parsed α n) : α × List Char := (p.value, p.rest)

/-! ## The first token -/

theorem skip_of_isSeparator {c : Char} (h : isSeparator c = true) (cs : List Char) :
    skip (c :: cs) = skip cs :=
  List.dropWhile_cons_of_pos h

theorem skip_of_not_isSeparator {c : Char} (h : isSeparator c = false) (cs : List Char) :
    skip (c :: cs) = c :: cs :=
  List.dropWhile_cons_of_neg (by simp [h])

/-- No separator is in front of a text without its separators. -/
theorem not_isSeparator_of_skip {cs ds : List Char} {c : Char} (h : skip cs = c :: ds) :
    isSeparator c = false := by
  induction cs with
  | nil => cases h
  | cons d cs ih =>
    cases hd : isSeparator d with
    | true => exact ih (by rwa [skip_of_isSeparator hd] at h)
    | false =>
      rw [skip_of_not_isSeparator hd] at h
      cases h
      exact hd

theorem skip_skip (cs : List Char) : skip (skip cs) = skip cs := by
  cases h : skip cs with
  | nil => rfl
  | cons c ds => exact skip_of_not_isSeparator (not_isSeparator_of_skip h) ds

theorem tokens_skip (cs : List Char) : tokens (skip cs) = tokens cs := by
  induction cs with
  | nil => rfl
  | cons c cs ih =>
    cases hc : isSeparator c with
    | true => rw [skip_of_isSeparator hc, tokens_separator hc, ih]
    | false => rw [skip_of_not_isSeparator hc]

theorem length_skip_le (cs : List Char) : (skip cs).length ≤ cs.length :=
  length_dropWhile_le isSeparator cs

/-- The first token of a text and the text behind it, both without separators in front. -/
def front (cs : List Char) : Option (Token × List Char) :=
  (lexeme? (skip cs)).map fun p => (p.1, skip p.2)

section

variable {cs rest : List Char} {t : Token} {us : List Token}

theorem front_skip (cs : List Char) : front (skip cs) = front cs := by
  rw [front, skip_skip, front]

theorem length_front (h : front cs = some (t, rest)) : rest.length < cs.length := by
  obtain ⟨⟨t, r⟩, hl, hr⟩ := Option.map_eq_some_iff.1 h
  cases hr
  calc (skip r).length ≤ r.length := length_skip_le r
    _ < (skip cs).length := length_lexeme? hl
    _ ≤ cs.length := length_skip_le cs

theorem tokens_of_front (h : front cs = some (t, rest)) :
    tokens cs = (tokens rest).map (t :: ·) := by
  obtain ⟨⟨t, r⟩, hl, hr⟩ := Option.map_eq_some_iff.1 h
  cases hr
  rw [← tokens_skip cs, tokens_skip r]
  cases hcs : skip cs with
  | nil =>
    rw [hcs] at hl
    cases hl
  | cons c ds =>
    rw [tokens_cons (not_isSeparator_of_skip hcs), ← hcs, hl]
    rfl

theorem front_of_tokens_cons (h : tokens cs = some (t :: us)) :
    ∃ rest, front cs = some (t, rest) ∧ tokens rest = some us := by
  rw [← tokens_skip] at h
  cases hcs : skip cs with
  | nil =>
    rw [hcs, tokens_nil] at h
    cases h
  | cons c ds =>
    rw [hcs, tokens_cons (not_isSeparator_of_skip hcs), ← hcs] at h
    obtain ⟨⟨u, r⟩, hl, hr⟩ := Option.bind_eq_some_iff.1 h
    obtain ⟨vs, hvs, heq⟩ := Option.map_eq_some_iff.1 hr
    cases heq
    exact ⟨skip r, by rw [front, hl]; rfl, by rw [tokens_skip, hvs]⟩

theorem skip_eq_nil_iff : skip cs = [] ↔ tokens cs = some [] := by
  constructor
  · intro h
    rw [← tokens_skip, h, tokens_nil]
  · intro h
    cases hcs : skip cs with
    | nil => rfl
    | cons c ds =>
      rw [← tokens_skip, hcs, tokens_cons (not_isSeparator_of_skip hcs)] at h
      obtain ⟨p, -, hp⟩ := Option.bind_eq_some_iff.1 h
      obtain ⟨vs, -, heq⟩ := Option.map_eq_some_iff.1 hp
      cases heq

end

/-! ## Scanners for one kind of token -/

section

variable {α : Type} {scan : (cs : List Char) → Option (Parsed α cs.length)}
  {kind : Token → Option α}

/-- The scanner finds the first token of a text, if it is of a kind. -/
def Finds (scan : (cs : List Char) → Option (Parsed α cs.length)) (kind : Token → Option α) :
    Prop :=
  ∀ cs, (scan cs).map Parsed.pair = (lexeme? cs).bind fun p => (kind p.1).map fun a => (a, p.2)

/-- With separators around it, a scanner looks at the first token. -/
theorem Finds.spaced (h : Finds scan kind) (cs : List Char) :
    (spaced scan cs).map Parsed.pair =
      (front cs).bind fun p => (kind p.1).map fun a => (a, p.2) := by
  have hspaced : (Formula.spaced scan cs).map Parsed.pair =
      ((scan (skip cs)).map Parsed.pair).map fun p => (p.1, skip p.2) := by
    unfold Formula.spaced
    cases scan (skip cs) <;> rfl
  rw [hspaced, h, front]
  cases lexeme? (skip cs) with
  | none => rfl
  | some p => cases hk : kind p.1 <;> simp [hk]

theorem numberToken?_eq_some {cs rest : List Char} {t : Token}
    (h : numberToken? cs = some (t, rest)) : ∃ c, t = .number c := by
  obtain ⟨p, -, hp⟩ := Option.map_eq_some_iff.1 h
  cases hp
  exact ⟨_, rfl⟩

/-- The operators and parentheses, one by one. -/
theorem operator?_cases {c : Char} {t : Token} (h : operator? c = some t) :
    c = '+' ∧ t = .plus ∨ c = '-' ∧ t = .minus ∨ c = '*' ∧ t = .times ∨ c = '/' ∧ t = .over ∨
      c = '^' ∧ t = .power ∨ c = '(' ∧ t = .lparen ∨ c = ')' ∧ t = .rparen := by
  obtain ⟨_, _, hsplit, -⟩ := List.lookup_eq_some_iff.1 h
  have hmem : (c, t) ∈ operators := by
    rw [hsplit]
    simp
  simpa [operators] using hmem

theorem operator?_eq_none_iff {c : Char} : operator? c = none ↔
    c ≠ '+' ∧ c ≠ '-' ∧ c ≠ '*' ∧ c ≠ '/' ∧ c ≠ '^' ∧ c ≠ '(' ∧ c ≠ ')' := by
  simp [operator?, operators]

/-- A scanner finds operators and parentheses of a kind if it looks at them in the right way, one
sign of a power included. -/
theorem Finds.of_operators (hnil : scan [] = none)
    (hstars : ∀ cs, (scan ('*' :: '*' :: cs)).map Parsed.pair =
      (kind .power).map fun a => (a, cs))
    (hoperator : ∀ {c t} cs, operator? c = some t → (c = '*' → cs.head? ≠ some '*') →
      (scan (c :: cs)).map Parsed.pair = (kind t).map fun a => (a, cs))
    (hother : ∀ {c} cs, operator? c = none → scan (c :: cs) = none)
    (hname : ∀ x, kind (.name x) = none) (hnumber : ∀ c, kind (.number c) = none) :
    Finds scan kind := by
  intro cs
  cases cs with
  | nil =>
    rw [hnil]
    rfl
  | cons c cs =>
    rw [lexeme?_cons]
    split
    case isTrue h =>
      obtain ⟨rfl, hcs⟩ := h
      obtain ⟨ds, rfl⟩ := List.head?_eq_some_iff.1 hcs
      exact hstars ds
    case isFalse h =>
      cases hop : operator? c with
      | some t => exact hoperator cs hop fun hc hcs => h ⟨hc, hcs⟩
      | none =>
        rw [hother cs hop, Option.elim_none]
        split
        · simp [hname]
        · cases hn : numberToken? (c :: cs) with
          | none => rfl
          | some p =>
            obtain ⟨a, ha⟩ := numberToken?_eq_some hn
            simp [ha, hnumber]

end

/-- The signs between the terms of a sum. -/
def Token.termSign? : Token → Option (Expr → Expr → Expr)
  | .plus => some .add
  | .minus => some .sub
  | _ => none

/-- The signs between the factors of a product. -/
def Token.factorSign? : Token → Option (Expr → Expr → Expr)
  | .times => some .mul
  | .over => some .div
  | _ => none

/-- The sign of a power. -/
def Token.powerSign? : Token → Option Unit
  | .power => some ()
  | _ => none

/-- A given token. -/
def Token.only? (t : Token) (u : Token) : Option Unit := if u = t then some () else none

/-- The value of a number. -/
def Token.number? : Token → Option Rat
  | .number c => some c
  | _ => none

/-- The text of a name. -/
def Token.name? : Token → Option String
  | .name x => some x
  | _ => none

theorem finds_termSign? : Finds termSign? Token.termSign? := by
  refine .of_operators rfl (fun _ => rfl) (fun cs h _ => ?_) (fun cs h => ?_) (fun _ => rfl)
    fun _ => rfl
  · rcases operator?_cases h with ⟨rfl, rfl⟩ | ⟨rfl, rfl⟩ | ⟨rfl, rfl⟩ | ⟨rfl, rfl⟩ | ⟨rfl, rfl⟩ |
      ⟨rfl, rfl⟩ | ⟨rfl, rfl⟩ <;> rfl
  · simp [termSign?, operator?_eq_none_iff.1 h]

/-- A single star is a product sign. -/
theorem factorSign?_star {cs : List Char} (h : cs.head? ≠ some '*') :
    (factorSign? ('*' :: cs)).map Parsed.pair = some (.mul, cs) := by
  cases cs with
  | nil => rfl
  | cons c cs =>
    have hc : c ≠ '*' := by simpa using h
    simp [factorSign?, hc, Parsed.pair]

/-- A single star is no sign of a power. -/
theorem powerSign?_star {cs : List Char} (h : cs.head? ≠ some '*') :
    (powerSign? ('*' :: cs)).map Parsed.pair = none := by
  cases cs with
  | nil => rfl
  | cons c cs =>
    have hc : c ≠ '*' := by simpa using h
    simp [powerSign?, hc]

theorem finds_factorSign? : Finds factorSign? Token.factorSign? := by
  refine .of_operators rfl (fun _ => rfl) (fun cs h hcs => ?_) (fun cs h => ?_) (fun _ => rfl)
    fun _ => rfl
  · rcases operator?_cases h with ⟨rfl, rfl⟩ | ⟨rfl, rfl⟩ | ⟨rfl, rfl⟩ | ⟨rfl, rfl⟩ | ⟨rfl, rfl⟩ |
      ⟨rfl, rfl⟩ | ⟨rfl, rfl⟩
    case inr.inr.inl => exact factorSign?_star (hcs rfl)
    all_goals rfl
  · simp [factorSign?, operator?_eq_none_iff.1 h]

theorem finds_powerSign? : Finds powerSign? Token.powerSign? := by
  refine .of_operators rfl (fun _ => rfl) (fun cs h hcs => ?_) (fun cs h => ?_) (fun _ => rfl)
    fun _ => rfl
  · rcases operator?_cases h with ⟨rfl, rfl⟩ | ⟨rfl, rfl⟩ | ⟨rfl, rfl⟩ | ⟨rfl, rfl⟩ | ⟨rfl, rfl⟩ |
      ⟨rfl, rfl⟩ | ⟨rfl, rfl⟩
    case inr.inr.inl => exact powerSign?_star (hcs rfl)
    all_goals rfl
  · simp [powerSign?, operator?_eq_none_iff.1 h]

/-- A character that makes up a token on its own. -/
theorem finds_char? {c : Char} {t : Token} (h : operator? c = some t) (ht : t ≠ .times)
    (hp : t ≠ .power) : Finds (char? c) (Token.only? t) := by
  have hc : c ≠ '*' := by
    rintro rfl
    cases h
    exact ht rfl
  have hinj : ∀ {d}, operator? d = some t → d = c := by
    intro d hd
    rcases operator?_cases h with ⟨rfl, rfl⟩ | ⟨rfl, rfl⟩ | ⟨rfl, rfl⟩ | ⟨rfl, rfl⟩ | ⟨rfl, rfl⟩ |
      ⟨rfl, rfl⟩ | ⟨rfl, rfl⟩ <;> simpa using operator?_cases hd
  refine .of_operators rfl (fun cs => ?_) (fun {d u} cs hd _ => ?_) (fun {d} cs hd => ?_)
    (fun x => ?_) fun a => ?_
  · simp [char?, Token.only?, hc.symm, hp.symm]
  · by_cases hdc : d = c
    · subst hdc
      obtain rfl : t = u := Option.some.inj (h.symm.trans hd)
      simp [char?, Token.only?, Parsed.pair]
    · have hu : u ≠ t := fun hu => hdc (hinj (hu ▸ hd))
      simp [char?, Token.only?, hdc, hu]
  · have hdc : d ≠ c := fun hdc => by simp [hdc, h] at hd
    simp [char?, hdc]
  · have hx : Token.name x ≠ t := by
      rintro rfl
      simpa using operator?_cases h
    simp [Token.only?, hx]
  · have ha : Token.number a ≠ t := by
      rintro rfl
      simpa using operator?_cases h
    simp [Token.only?, ha]

theorem number?_cons_of_not {c : Char} (h : c.isDigit = false) (hp : c ≠ '.') (cs : List Char) :
    number? (c :: cs) = none := by
  simp [number?, h, fraction, hp]

theorem finds_number? : Finds number? Token.number? := by
  intro cs
  cases cs with
  | nil => rfl
  | cons c cs =>
    by_cases hc : c.isDigit = true ∨ c = '.'
    · rw [lexeme?_of_numeric hc, numberToken?]
      cases number? (c :: cs) <;> rfl
    · obtain ⟨hd, hp⟩ := not_or.1 hc
      rw [number?_cons_of_not (by simpa using hd) hp]
      cases hl : lexeme? (c :: cs) with
      | none => rfl
      | some p =>
        obtain ⟨t, rest⟩ := p
        cases lexes_of_lexeme? hl with
        | stars => rfl
        | operator hop =>
          rcases operator?_cases hop with ⟨-, rfl⟩ | ⟨-, rfl⟩ | ⟨-, rfl⟩ | ⟨-, rfl⟩ | ⟨-, rfl⟩ |
            ⟨-, rfl⟩ | ⟨-, rfl⟩ <;> rfl
        | name => rfl
        | number _ _ hn =>
          rw [numberToken?, number?_cons_of_not (by simpa using hd) hp] at hn
          cases hn

theorem finds_name? : Finds name? Token.name? := by
  intro cs
  cases cs with
  | nil => rfl
  | cons c cs =>
    by_cases hc : c.isAlpha = true
    · rw [lexeme?_of_isAlpha hc, name?, if_pos hc]
      rfl
    · rw [name?, if_neg hc]
      cases hl : lexeme? (c :: cs) with
      | none => rfl
      | some p =>
        obtain ⟨t, rest⟩ := p
        cases lexes_of_lexeme? hl with
        | stars => rfl
        | operator hop =>
          rcases operator?_cases hop with ⟨-, rfl⟩ | ⟨-, rfl⟩ | ⟨-, rfl⟩ | ⟨-, rfl⟩ | ⟨-, rfl⟩ |
            ⟨-, rfl⟩ | ⟨-, rfl⟩ <;> rfl
        | name ha => exact absurd ha hc
        | number _ _ hn =>
          obtain ⟨a, rfl⟩ := numberToken?_eq_some hn
          rfl

/-! ## Names of functions -/

/-- The function that a name stands for in front of a parenthesis. -/
def function? (x : String) : Option (Expr → Expr) := functions.lookup x

/-- No name of a function starts with another one. -/
theorem functions_separate {p q : String × (Expr → Expr)} (hp : p ∈ functions)
    (hq : q ∈ functions) (h : p.1.toList <+: q.1.toList) : p = q := by
  simp only [functions, List.mem_cons, List.not_mem_nil, or_false] at hp hq
  rcases hp with rfl | rfl | rfl | rfl | rfl | rfl | rfl <;>
  rcases hq with rfl | rfl | rfl | rfl | rfl | rfl | rfl <;>
  first | rfl | exact absurd h (by decide)

theorem function?_eq_some_iff_mem {x : String} {f : Expr → Expr} :
    function? x = some f ↔ (x, f) ∈ functions := by
  have hmem : ∀ {g}, function? x = some g → (x, g) ∈ functions := by
    intro g hg
    obtain ⟨_, _, hsplit, -⟩ := List.lookup_eq_some_iff.1 hg
    rw [hsplit]
    simp
  refine ⟨hmem, fun h => ?_⟩
  cases hx : function? x with
  | none =>
    have := List.lookup_eq_none_iff.1 hx (x, f) h
    simp at this
  | some g =>
    have hgf : (x, g) = (x, f) := functions_separate (hmem hx) h (List.prefix_refl _)
    rw [(Prod.mk.inj hgf).2]

/-- Names of functions are letters. -/
theorem isAlpha_of_mem_functions {p : String × (Expr → Expr)} (h : p ∈ functions) :
    ∃ c cs, p.1.toList = c :: cs ∧ (c :: cs).all Char.isAlpha = true := by
  simp only [functions, List.mem_cons, List.not_mem_nil, or_false] at h
  rcases h with rfl | rfl | rfl | rfl | rfl | rfl | rfl <;> exact ⟨_, _, rfl, by decide⟩

/-- What is looked for is one of the names at the front of the text. -/
theorem functionName?_eq_some_iff {cs rest : List Char} {f : Expr → Expr} :
    (functionName? cs).map Parsed.pair = some (f, rest) ↔
      ∃ x, function? x = some f ∧ cs = x.toList ++ rest := by
  have hsound : ∀ {g r}, (functionName? cs).map Parsed.pair = some (g, r) →
      ∃ x, (x, g) ∈ functions ∧ cs = x.toList ++ r := by
    intro g r h
    obtain ⟨p, hp, heq⟩ := Option.map_eq_some_iff.1 h
    obtain ⟨q, hq, hfind⟩ := List.exists_of_findSome?_eq_some hp
    split at hfind
    case isTrue hprefix =>
      cases hfind
      cases heq
      obtain ⟨ds, rfl⟩ := List.isPrefixOf_iff_prefix.1 hprefix.1
      exact ⟨q.1, hq, by simp⟩
    case isFalse => cases hfind
  simp only [function?_eq_some_iff_mem]
  refine ⟨hsound, ?_⟩
  rintro ⟨x, hx, rfl⟩
  cases hfind : functionName? (x.toList ++ rest) with
  | none =>
    have hnone := List.findSome?_eq_none_iff.1 hfind (x, f) hx
    obtain ⟨c, ds, hcs, -⟩ := isAlpha_of_mem_functions hx
    simp [hcs] at hnone
  | some p =>
    obtain ⟨y, hy, heq⟩ := hsound (by rw [hfind, Option.map_some])
    have hyx : (y, p.value) = (x, f) := by
      have hfound : y.toList <+: x.toList ++ rest := ⟨p.rest, heq.symm⟩
      rcases List.prefix_or_prefix_of_prefix hfound (List.prefix_append _ _) with h | h
      · exact functions_separate hy hx h
      · exact (functions_separate hx hy h).symm
    obtain ⟨rfl, rfl⟩ := Prod.mk.inj hyx
    exact congrArg (fun r => some (p.value, r)) (List.append_cancel_left heq).symm

theorem not_isAlphanum_of_isSeparator {c : Char} (h : isSeparator c = true) :
    c.isAlphanum = false := by
  rw [← Bool.not_eq_true]
  intro hc
  rw [StartsOperand.not_separator (.inl hc)] at h
  cases h

/-- Only its own character, or a separator, is in front of a parenthesis. -/
theorem not_isAlphanum_of_front_lparen {cs rest : List Char}
    (h : front cs = some (.lparen, rest)) : ∀ c, cs.head? = some c → c.isAlphanum = false := by
  intro c hc
  obtain ⟨ds, rfl⟩ := List.head?_eq_some_iff.1 hc
  cases hsep : isSeparator c with
  | true => exact not_isAlphanum_of_isSeparator hsep
  | false =>
    rw [front, skip_of_not_isSeparator hsep] at h
    obtain ⟨⟨t, r⟩, hl, heq⟩ := Option.map_eq_some_iff.1 h
    cases heq
    cases lexes_of_lexeme? hl with
    | operator hop => exact (operator?_spec hop).1
    | number _ _ hn =>
      obtain ⟨a, ha⟩ := numberToken?_eq_some hn
      cases ha

theorem lexeme?_of_function? {x : String} {f : Expr → Expr} (hx : function? x = some f)
    {rest : List Char} (hrest : ∀ c, rest.head? = some c → c.isAlphanum = false) :
    lexeme? (x.toList ++ rest) = some (.name x, rest) := by
  obtain ⟨c, ds, hxs, hall⟩ := isAlpha_of_mem_functions (function?_eq_some_iff_mem.1 hx)
  simp only [List.all_cons, Bool.and_eq_true, List.all_eq_true] at hall
  have hds : ∀ d ∈ ds, d.isAlphanum = true := fun d hd => isAlphanum_iff.2 (.inl (hall.2 d hd))
  rw [show x.toList = c :: ds from hxs, List.cons_append, lexeme?_of_isAlpha hall.1,
    takeWhile_append_of_head hrest, dropWhile_append_of_head hrest,
    List.takeWhile_eq_self_iff.2 hds, List.dropWhile_eq_nil_iff.2 hds, ← hxs]
  simp

/-- A name of a function in front of a parenthesis is a whole name. -/
theorem front_of_functionName? {cs rest r : List Char} {f : Expr → Expr}
    (h : (spaced functionName? cs).map Parsed.pair = some (f, rest))
    (hr : front rest = some (.lparen, r)) :
    ∃ x, function? x = some f ∧ front cs = some (.name x, rest) := by
  obtain ⟨q, hq, heq⟩ := Option.map_eq_some_iff.1 h
  obtain ⟨p, hp, rfl⟩ := Option.map_eq_some_iff.1 hq
  cases heq
  obtain ⟨x, hx, hcs⟩ := functionName?_eq_some_iff.1 (congrArg (Option.map Parsed.pair) hp)
  have hlex := lexeme?_of_function? hx
    (not_isAlphanum_of_front_lparen (front_skip p.rest ▸ hr))
  rw [← hcs] at hlex
  exact ⟨x, hx, by rw [front, hlex]; rfl⟩

theorem functionName?_of_front {cs rest : List Char} {x : String} {f : Expr → Expr}
    (h : front cs = some (.name x, rest)) (hf : function? x = some f) :
    (spaced functionName? cs).map Parsed.pair = some (f, rest) := by
  obtain ⟨⟨t, r⟩, hl, heq⟩ := Option.map_eq_some_iff.1 h
  cases heq
  have hcs : skip cs = x.toList ++ r := by
    cases hskip : skip cs with
    | nil =>
      rw [hskip] at hl
      cases hl
    | cons c ds =>
      rw [hskip] at hl
      cases lexes_of_lexeme? hl with
      | operator hop => simpa using operator?_cases hop
      | name => simp
      | number _ _ hn =>
        obtain ⟨a, ha⟩ := numberToken?_eq_some hn
        cases ha
  obtain ⟨p, hp, heq⟩ := Option.map_eq_some_iff.1 (functionName?_eq_some_iff.2 ⟨x, hf, hcs⟩)
  cases heq
  rw [spaced, hp]
  rfl

end MarketAlgebra.Formula
