import Mathlib
import MarketAlgebra.Formula.Reading
import MarketAlgebra.Formula.Shorthand
import MarketAlgebra.Proofs.Formula.Lexing
import MarketAlgebra.Proofs.Formula.Parentheses
import MarketAlgebra.Proofs.Repetitions

/-!
# Spelling out shorthand in formulas

The text of a formula has no shorthand for products, since a digit and a letter never meet in it.
Each of its runs of letters, digits and points is a single token (`tokens_run`), so putting the
sides of bare quotients into parentheses is `wrap` on its tokens (`tokens_wrapQuotients`).

A formula in one variable therefore stays the same formula, unless one of its bare quotients has the
name of a function below the bar.  Then what is made of it is no formula at all.
-/

namespace MarketAlgebra.Formula

/-! ## How tokens are spelt -/

theorem isOperandChar_iff {c : Char} :
    isOperandChar c = true ↔ c.isAlphanum = true ∨ c = '.' := by
  simp [isOperandChar]

/-- The characters that a token of each kind has. -/
def Token.SpeltBy : Token → List Char → Prop
  | .number _, w => ∀ c ∈ w, c.isDigit = true ∨ c = '.'
  | .name x, w => w = x.toList ∧ ∀ c ∈ w, c.isAlphanum = true
  | _, w => ∀ c ∈ w, isOperandChar c = false

theorem isOperandChar_of_numeric {c : Char} (h : c.isDigit = true ∨ c = '.') :
    isOperandChar c = true :=
  isOperandChar_iff.2 (h.imp_left fun hd => isAlphanum_iff.2 (.inr hd))

/-- Numbers and names have operand characters only. -/
theorem Token.SpeltBy.operand {t : Token} {w : List Char} (h : t.SpeltBy w)
    (ht : t.isOperand = true) : ∀ c ∈ w, isOperandChar c = true := by
  intro c hc
  cases t with
  | number q => exact isOperandChar_of_numeric (h c hc)
  | name x => exact isOperandChar_iff.2 (.inl (h.2 c hc))
  | _ => cases ht

/-- Other tokens have none. -/
theorem Token.SpeltBy.not_operand {t : Token} {w : List Char} (h : t.SpeltBy w)
    (ht : t.isOperand = false) : ∀ c ∈ w, isOperandChar c = false := by
  cases t with
  | number q => cases ht
  | name x => cases ht
  | _ => exact h

theorem fraction_split (cs : List Char) :
    ∃ w, cs = w ++ (fraction cs).2 ∧ (∀ c ∈ w, c.isDigit = true ∨ c = '.') ∧
      ((fraction cs).1 ≠ [] → w ≠ []) := by
  unfold fraction
  split
  next cs =>
    refine ⟨'.' :: cs.takeWhile Char.isDigit, by simp, ?_, by simp⟩
    intro c hc
    rcases List.mem_cons.1 hc with rfl | hc
    · exact .inr rfl
    · exact .inl (List.mem_takeWhile_imp hc)
  next => exact ⟨[], rfl, by simp, by simp⟩

theorem isOperand_of_numberToken? {cs rest : List Char} {t : Token}
    (h : numberToken? cs = some (t, rest)) : t.isOperand = true := by
  obtain ⟨a, rfl⟩ := numberToken?_eq_some h
  rfl

theorem numberToken?_split {cs rest : List Char} {t : Token}
    (h : numberToken? cs = some (t, rest)) : ∃ w, w ≠ [] ∧ cs = w ++ rest ∧ t.SpeltBy w := by
  rw [numberToken?_eq] at h
  split at h
  · cases h
  next hne =>
    cases h
    obtain ⟨w, hw, hdigits, hnil⟩ := fraction_split (cs.dropWhile Char.isDigit)
    refine ⟨cs.takeWhile Char.isDigit ++ w, ?_, ?_, ?_⟩
    · intro happend
      obtain ⟨hwhole, rfl⟩ := List.append_eq_nil_iff.1 happend
      have hbehind : (fraction (cs.dropWhile Char.isDigit)).1 = [] :=
        Classical.not_not.1 fun hb => hnil hb rfl
      simp [hwhole, hbehind] at hne
    · rw [List.append_assoc, ← hw, List.takeWhile_append_dropWhile]
    · intro c hc
      rcases List.mem_append.1 hc with hc | hc
      · exact .inl (List.mem_takeWhile_imp hc)
      · exact hdigits c hc

/-- Operators are no operand characters. -/
theorem operator?_not_operand {c : Char} {t : Token} (h : operator? c = some t) :
    isOperandChar c = false := by
  obtain ⟨halphanum, hpoint, -⟩ := operator?_spec h
  rw [← Bool.not_eq_true, isOperandChar_iff, halphanum]
  simpa using hpoint

theorem operator?_speltBy {c : Char} {t : Token} (h : operator? c = some t) :
    t.SpeltBy [c] := by
  have ht : t.isOperand = false := by
    simpa using operator?_all h (p := fun q => !q.2.isOperand) rfl
  have hc : ∀ d ∈ [c], isOperandChar d = false := by
    intro d hd
    rw [List.mem_singleton.1 hd]
    exact operator?_not_operand h
  cases t with
  | number q => cases ht
  | name x => cases ht
  | _ => exact hc

/-- A token takes the characters that it is spelt by. -/
theorem lexeme?_split {c : Char} {cs rest : List Char} {t : Token}
    (h : lexeme? (c :: cs) = some (t, rest)) :
    ∃ w, cs = w ++ rest ∧ t.SpeltBy (c :: w) := by
  cases lexes_of_lexeme? h with
  | stars hc hcs =>
    subst hc hcs
    refine ⟨['*'], rfl, ?_⟩
    intro c hc
    obtain rfl : c = '*' := by simpa using hc
    rfl
  | operator hop => exact ⟨[], rfl, operator?_speltBy hop⟩
  | name halpha =>
    refine ⟨cs.takeWhile Char.isAlphanum, List.takeWhile_append_dropWhile.symm, by simp, ?_⟩
    intro d hd
    rcases List.mem_cons.1 hd with rfl | hd
    · exact isAlphanum_iff.2 (.inl halpha)
    · exact List.mem_takeWhile_imp hd
  | number _ _ hnumber =>
    obtain ⟨w, hw, hsplit, hspelt⟩ := numberToken?_split hnumber
    cases w with
    | nil => exact absurd rfl hw
    | cons d w =>
      obtain ⟨rfl, rfl⟩ := List.cons.inj hsplit
      exact ⟨w, rfl, hspelt⟩

/-- The first token of a text takes its first character and some more. -/
theorem tokens_cons_split {c : Char} {cs : List Char} {ts : List Token}
    (hc : isSeparator c = false) (h : tokens (c :: cs) = some ts) :
    ∃ t w rest us, lexeme? (c :: cs) = some (t, rest) ∧ cs = w ++ rest ∧ t.SpeltBy (c :: w) ∧
      tokens rest = some us ∧ ts = t :: us := by
  rw [tokens_cons hc] at h
  obtain ⟨⟨t, rest⟩, hlex, hmap⟩ := Option.bind_eq_some_iff.1 h
  obtain ⟨us, hus, rfl⟩ := Option.map_eq_some_iff.1 hmap
  obtain ⟨w, hsplit, hspelt⟩ := lexeme?_split hlex
  exact ⟨t, w, rest, us, hlex, hsplit, hspelt, hus, rfl⟩

/-- Operands are the tokens that start with an operand character. -/
theorem Token.SpeltBy.isOperand {t : Token} {c : Char} {w : List Char} (h : t.SpeltBy (c :: w)) :
    t.isOperand = isOperandChar c := by
  cases ht : t.isOperand with
  | true => exact (h.operand ht c List.mem_cons_self).symm
  | false => exact (h.not_operand ht c List.mem_cons_self).symm

theorem isSeparator_of_isOperandChar {c : Char} (h : isOperandChar c = true) :
    isSeparator c = false :=
  StartsOperand.not_separator (isOperandChar_iff.1 h)

theorem not_follows_operand {t u : Token} (ht : t.isOperand = true) (hu : u.isOperand = true) :
    ¬ Follows t u := by
  intro h
  have hcloses : t.closes = true := by cases t <;> first | rfl | cases ht
  have hopens : u.opens = true := by cases u <;> first | rfl | cases hu
  obtain ⟨-, rfl⟩ := h hcloses hopens
  cases hu

/-- What follows an operand does not start with an operand character. -/
theorem not_isOperandChar_of_follows {t : Token} {rest : List Char} {us : List Token}
    (ht : t.isOperand = true) (h : tokens rest = some us)
    (hchain : List.IsChain Follows (t :: us)) :
    ∀ c, rest.head? = some c → isOperandChar c = false := by
  intro c hc
  obtain ⟨cs, rfl⟩ := List.head?_eq_some_iff.1 hc
  rw [← Bool.not_eq_true]
  intro hop
  obtain ⟨u, w, -, vs, -, -, hspelt, -, rfl⟩ :=
    tokens_cons_split (isSeparator_of_isOperandChar hop) h
  exact not_follows_operand ht (hspelt.isOperand.trans hop) (List.isChain_cons_cons.1 hchain).1

theorem breaks_of_not_isOperandChar {rest : List Char}
    (h : ∀ c, rest.head? = some c → isOperandChar c = false) : Breaks rest := by
  intro c hc
  have hn := h c hc
  rw [← Bool.not_eq_true, isOperandChar_iff, not_or] at hn
  exact ⟨by simpa using hn.1, hn.2⟩

/-- In a formula a run of operand characters is a single token. -/
theorem tokens_run {c : Char} {cs : List Char} {ts : List Token} (hc : isOperandChar c = true)
    (h : tokens (c :: cs) = some ts) (hchain : ts.IsChain Follows) :
    ∃ t us, ts = t :: us ∧ t.isOperand = true ∧ Spells (c :: (operand cs).1) [t] ∧
      tokens (operand cs).2 = some us ∧
      ∀ d, (operand cs).2.head? = some d → isOperandChar d = false := by
  obtain ⟨t, w, rest, us, hlex, rfl, hspelt, hus, rfl⟩ :=
    tokens_cons_split (isSeparator_of_isOperandChar hc) h
  have ht : t.isOperand = true := hspelt.isOperand.trans hc
  have hrest := not_isOperandChar_of_follows ht hus hchain
  have hw : ∀ d ∈ w, isOperandChar d = true :=
    fun d hd => hspelt.operand ht d (List.mem_cons_of_mem c hd)
  have hrun : (operand (w ++ rest)).1 = w := by
    rw [operand, takeWhile_append_of_head hrest, List.takeWhile_eq_self_iff.2 hw]
  have hbehind : (operand (w ++ rest)).2 = rest := by
    rw [operand, dropWhile_append_of_head hrest, List.dropWhile_eq_nil_iff.2 hw, List.nil_append]
  have hstarts : StartsOperand (c :: w) := ⟨c, w, rfl, isOperandChar_iff.1 hc⟩
  rw [← List.cons_append, lexeme?_append hstarts (breaks_of_not_isOperandChar hrest)] at hlex
  obtain ⟨⟨t', s⟩, hlex', heq⟩ := Option.map_eq_some_iff.1 hlex
  obtain ⟨rfl, hs⟩ := Prod.mk.inj heq
  obtain rfl : s = [] := List.append_left_eq_self.1 hs
  rw [hrun, hbehind]
  exact ⟨_, us, rfl, ht, .of_lexeme? hstarts hlex', hus, hrest⟩

/-! ## Products -/

theorem adjoins_of_left {c : Char} (h : isOperandChar c = false) (d : Char) :
    adjoins c d = false := by
  rw [← Bool.not_eq_true, isOperandChar_iff, isAlphanum_iff] at h
  have hdigit : c.isDigit = false := by simpa using fun hd => h (.inl (.inr hd))
  have halpha : c.isAlpha = false := by simpa using fun ha => h (.inl (.inl ha))
  simp [adjoins, hdigit, halpha]

theorem adjoins_of_right {d : Char} (h : isOperandChar d = false) (c : Char) :
    adjoins c d = false := by
  rw [← Bool.not_eq_true, isOperandChar_iff, isAlphanum_iff] at h
  have hdigit : d.isDigit = false := by simpa using fun hd => h (.inl (.inr hd))
  have halpha : d.isAlpha = false := by simpa using fun ha => h (.inl (.inl ha))
  simp [adjoins, hdigit, halpha]

/-- Where no digit meets a letter, no product sign is missing. -/
theorem spellProducts_eq_self {cs : List Char}
    (h : cs.IsChain fun c d => adjoins c d = false) : spellProducts cs = cs := by
  induction cs with
  | nil => rfl
  | cons c cs ih =>
    cases cs with
    | nil => rfl
    | cons d cs =>
      obtain ⟨hcd, htail⟩ := List.isChain_cons_cons.1 h
      rw [spellProducts, if_neg (by simp [hcd]), ih htail]

/-- No digit meets a letter in a number or in a name of letters. -/
theorem Token.SpeltBy.isChain {t : Token} {w : List Char} (h : t.SpeltBy w)
    (hname : ∀ x, t = .name x → ∀ c ∈ x.toList, c.isAlpha = true) :
    w.IsChain fun c d => adjoins c d = false := by
  refine List.Pairwise.isChain (List.pairwise_of_forall_mem_list ?_)
  intro c hc d hd
  cases t with
  | number q =>
    have halpha : ∀ e ∈ w, e.isAlpha = false := by
      intro e he
      rcases h e he with hdigit | rfl
      · exact isAlpha_eq_false_of_isDigit hdigit
      · decide
    simp [adjoins, halpha c hc, halpha d hd]
  | name x =>
    have hdigit : ∀ e ∈ w, e.isDigit = false := by
      intro e he
      rw [h.1] at he
      rw [← Bool.not_eq_true]
      intro hd
      have := hname x rfl e he
      rw [isAlpha_eq_false_of_isDigit hd] at this
      cases this
    simp [adjoins, hdigit c hc, hdigit d hd]
  | _ => exact adjoins_of_left (h c hc) d

/-- In a formula whose names have letters only, no digit meets a letter. -/
theorem isChain_of_tokens {cs : List Char} {ts : List Token} (h : tokens cs = some ts)
    (hchain : ts.IsChain Follows)
    (hname : ∀ x, .name x ∈ ts → ∀ c ∈ x.toList, c.isAlpha = true) :
    cs.IsChain fun c d => adjoins c d = false := by
  induction hn : cs.length using Nat.strongRecOn generalizing cs ts with
  | ind n ih =>
    cases cs with
    | nil => simp
    | cons c cs =>
      cases hsep : isSeparator c with
      | true =>
        rw [tokens_separator hsep] at h
        refine List.isChain_cons.2 ⟨fun d _ => ?_, ih cs.length (by simp [← hn]) h hchain hname rfl⟩
        refine adjoins_of_left ?_ d
        rw [← Bool.not_eq_true]
        intro hop
        rw [isSeparator_of_isOperandChar hop] at hsep
        cases hsep
      | false =>
        obtain ⟨t, w, rest, us, hlex, rfl, hspelt, hus, rfl⟩ := tokens_cons_split hsep h
        have hfirst := hspelt.isChain fun x hx => hname x (by simp [hx])
        have hshort : rest.length < n := by
          rw [← hn, List.length_cons, List.length_append]
          omega
        have hrest := ih rest.length hshort hus hchain.tail
          (fun x hx => hname x (List.mem_cons_of_mem t hx)) rfl
        rw [← List.cons_append]
        refine hfirst.append hrest ?_
        intro d hd e he
        cases ht : t.isOperand with
        | true => exact adjoins_of_right (not_isOperandChar_of_follows ht hus hchain e he) d
        | false => exact adjoins_of_left (hspelt.not_operand ht d (List.mem_of_mem_getLast? hd)) e

/-! ## Quotients -/

theorem isBlank_of_operator? {c : Char} {t : Token} (h : operator? c = some t) :
    Text.isBlank c = false := by
  simpa using operator?_all h (p := fun q => !Text.isBlank q.1) rfl

/-- A blank character in front of a formula is a separator. -/
theorem isSeparator_of_isBlank {c : Char} {cs : List Char} {ts : List Token}
    (hc : Text.isBlank c = true) (h : tokens (c :: cs) = some ts) : isSeparator c = true := by
  cases hsep : isSeparator c with
  | true => rfl
  | false =>
    obtain ⟨t, w, rest, us, hlex, -⟩ := tokens_cons_split hsep h
    have halpha : c.isAlpha = false := by
      rw [← Bool.not_eq_true, isAlpha_iff]
      simp only [Text.isBlank, Text.blankRanges, List.any_cons, List.any_nil, Bool.or_eq_true,
        Bool.and_eq_true, decide_eq_true_eq, Bool.false_eq_true, or_false] at hc
      omega
    have hdigit : c.isDigit = false := by
      rw [← Bool.not_eq_true, isDigit_iff]
      simp only [Text.isBlank, Text.blankRanges, List.any_cons, List.any_nil, Bool.or_eq_true,
        Bool.and_eq_true, decide_eq_true_eq, Bool.false_eq_true, or_false] at hc
      omega
    cases lexes_of_lexeme? hlex with
    | stars hstar =>
      subst hstar
      cases hc
    | operator hop =>
      rw [isBlank_of_operator? hop] at hc
      cases hc
    | name hname =>
      rw [halpha] at hname
      cases hname
    | number _ _ hnumber =>
      have hpoint : c ≠ '.' := by
        rintro rfl
        cases hc
      simp [numberToken?_eq, hdigit, fraction, hpoint] at hnumber

theorem tokens_dropWhile_isBlank {cs : List Char} {ts : List Token} (h : tokens cs = some ts) :
    tokens (cs.dropWhile Text.isBlank) = some ts := by
  induction cs with
  | nil => exact h
  | cons c cs ih =>
    cases hc : Text.isBlank c with
    | true =>
      rw [List.dropWhile_cons_of_pos hc]
      rw [tokens_separator (isSeparator_of_isBlank hc h)] at h
      exact ih h
    | false => rwa [List.dropWhile_cons_of_neg (by simp [hc])]

theorem isBlank_of_isSeparator {c : Char} (h : isSeparator c = true) : Text.isBlank c = true := by
  simp only [isSeparator, Bool.or_eq_true, beq_iff_eq] at h
  rcases h with ((rfl | rfl) | rfl) | rfl <;> decide

/-- Behind its blanks, a formula starts with its first token. -/
theorem tokens_dropWhile_cons {cs : List Char} {t : Token} {us : List Token}
    (h : tokens cs = some (t :: us)) :
    ∃ c ds w rest, cs.dropWhile Text.isBlank = c :: ds ∧ lexeme? (c :: ds) = some (t, rest) ∧
      t.SpeltBy (c :: w) ∧ ds = w ++ rest ∧ tokens rest = some us := by
  have hdrop := tokens_dropWhile_isBlank h
  cases hcs : cs.dropWhile Text.isBlank with
  | nil =>
    rw [hcs, tokens_nil] at hdrop
    cases hdrop
  | cons c ds =>
    rw [hcs] at hdrop
    have hsep : isSeparator c = false := by
      rw [← Bool.not_eq_true]
      intro hsep
      have hblank := List.head?_dropWhile_not Text.isBlank cs
      rw [hcs] at hblank
      simp [isBlank_of_isSeparator hsep] at hblank
    obtain ⟨t', w, rest, us', hlex, rfl, hspelt, hus, heq⟩ := tokens_cons_split hsep hdrop
    obtain ⟨rfl, rfl⟩ := List.cons.inj heq
    exact ⟨c, _, w, rest, rfl, hlex, hspelt, rfl, hus⟩

theorem operand_cons {c : Char} (h : isOperandChar c = true) (cs : List Char) :
    operand (c :: cs) = (c :: (operand cs).1, (operand cs).2) := by
  simp [operand, h]

theorem operand_cons_of_not {c : Char} (h : isOperandChar c = false) (cs : List Char) :
    operand (c :: cs) = ([], c :: cs) := by
  simp [operand, h]

theorem eq_slash_of_operator? {c : Char} (h : operator? c = some .over) : c = '/' := by
  simpa using operator?_all h (p := fun q => q.2 != .over || q.1 == '/') rfl

/-- A slash and nothing else is the token of a quotient. -/
theorem eq_slash_of_lexeme? {c : Char} {cs rest : List Char}
    (h : lexeme? (c :: cs) = some (.over, rest)) : c = '/' ∧ rest = cs := by
  cases lexes_of_lexeme? h with
  | operator hop => exact ⟨eq_slash_of_operator? hop, rfl⟩
  | number _ _ hnumber => cases isOperand_of_numberToken? hnumber

/-- A denominator is the token behind a slash. -/
theorem tokens_of_denominator? {cs den rest : List Char} {us : List Token}
    (hden : denominator? cs = some (den, rest)) (h : tokens cs = some us)
    (hchain : us.IsChain Follows) :
    ∃ u vs, us = .over :: u :: vs ∧ u.isOperand = true ∧ Spells den [u] ∧
      tokens rest = some vs ∧ ∀ d, rest.head? = some d → isOperandChar d = false := by
  have hdrop := tokens_dropWhile_isBlank h
  rw [denominator?] at hden
  split at hden
  next ds hcs =>
    rw [hcs, tokens_cons rfl] at hdrop
    obtain ⟨vs, hvs, rfl⟩ := Option.map_eq_some_iff.1 hdrop
    have hds := tokens_dropWhile_isBlank hvs
    cases hes : ds.dropWhile Text.isBlank with
    | nil => simp [hes, operand] at hden
    | cons d es =>
      rw [hes] at hds hden
      cases hd : isOperandChar d with
      | false => simp [operand_cons_of_not hd] at hden
      | true =>
        obtain ⟨u, ws, rfl, hu, hspells, hws, hhead⟩ := tokens_run hd hds hchain.tail
        simp only [operand_cons hd, List.isEmpty_cons, Bool.false_eq_true, if_false] at hden
        cases hden
        exact ⟨u, ws, rfl, hu, hspells, hws, hhead⟩
  next => cases hden

/-- Where there is no denominator, no operand stands behind a slash. -/
theorem not_isOperand_of_denominator? {cs : List Char} {us : List Token}
    (hden : denominator? cs = none) (h : tokens cs = some us) :
    ∀ u vs, us = .over :: u :: vs → u.isOperand = false := by
  rintro u vs rfl
  obtain ⟨c, ds, w, rest, hcs, hlex, -, -, hrest⟩ := tokens_dropWhile_cons h
  obtain ⟨rfl, rfl⟩ := eq_slash_of_lexeme? hlex
  obtain ⟨d, es, w, rest', hds, -, hspelt, -, -⟩ := tokens_dropWhile_cons hrest
  rw [hspelt.isOperand]
  rw [← Bool.not_eq_true]
  intro hd
  simp [denominator?, hcs, hds, operand_cons hd] at hden

theorem wrapQuotients_nil : wrapQuotients [] = [] := by
  rw [wrapQuotients]

theorem wrapQuotients_cons {c : Char} (h : isOperandChar c = false) (cs : List Char) :
    wrapQuotients (c :: cs) = c :: wrapQuotients cs := by
  rw [wrapQuotients, if_neg (by simp [h])]

theorem wrapQuotients_run {c : Char} {cs : List Char} (h : isOperandChar c = true)
    (hden : denominator? (operand cs).2 = none) :
    wrapQuotients (c :: cs) = (c :: (operand cs).1) ++ wrapQuotients (operand cs).2 := by
  rw [wrapQuotients, if_pos h]
  split
  next heq => simp [hden] at heq
  next => rfl

theorem wrapQuotients_quotient {c : Char} {cs den rest : List Char} (h : isOperandChar c = true)
    (hden : denominator? (operand cs).2 = some (den, rest)) :
    wrapQuotients (c :: cs) =
      '(' :: ((c :: (operand cs).1) ++ [')']) ++
        (['/'] ++ ('(' :: (den ++ [')']) ++ wrapQuotients rest)) := by
  rw [wrapQuotients, if_pos h]
  split
  next heq =>
    rw [hden] at heq
    cases heq
    simp
  next heq => simp [hden] at heq

theorem breaks_wrapQuotients {rest : List Char}
    (h : ∀ c, rest.head? = some c → isOperandChar c = false) : Breaks (wrapQuotients rest) := by
  cases rest with
  | nil =>
    rw [wrapQuotients_nil]
    exact breaks_nil
  | cons c cs =>
    rw [wrapQuotients_cons (h c rfl)]
    exact breaks_of_not_isOperandChar fun d hd => h d hd

/-- No star comes to stand in front of a text. -/
theorem head_wrapQuotients {cs : List Char} (h : cs.head? ≠ some '*') :
    (wrapQuotients cs).head? ≠ some '*' := by
  cases cs with
  | nil => simp [wrapQuotients_nil]
  | cons c cs =>
    cases hc : isOperandChar c with
    | false => simpa [wrapQuotients_cons hc] using h
    | true =>
      cases hden : denominator? (operand cs).2 with
      | none => simpa [wrapQuotients_run hc hden] using h
      | some p => simp [wrapQuotients_quotient hc hden]

/-- A token that is not an operand is one character, unless it is two stars. -/
theorem tokens_operator {c : Char} {cs : List Char} {t : Token} {us : List Token}
    (hc : isOperandChar c = false) (hsep : isSeparator c = false)
    (h : tokens (c :: cs) = some (t :: us)) (hstars : c = '*' → cs.head? ≠ some '*') :
    tokens cs = some us ∧ ∀ ds vs, (c = '*' → ds.head? ≠ some '*') → tokens ds = some vs →
      tokens (c :: ds) = some (t :: vs) := by
  rw [tokens_cons hsep] at h
  obtain ⟨⟨t', rest⟩, hlex, hmap⟩ := Option.bind_eq_some_iff.1 h
  obtain ⟨us', hus, heq⟩ := Option.map_eq_some_iff.1 hmap
  obtain ⟨rfl, rfl⟩ := List.cons.inj heq
  cases lexes_of_lexeme? hlex with
  | stars hstar hds =>
    subst hds
    exact absurd rfl (hstars hstar)
  | operator hop =>
    refine ⟨hus, fun ds vs hstar hvs => ?_⟩
    rw [tokens_cons hsep, lexeme?_of_operator hop hstar]
    simp [hvs]
  | name halpha =>
    rw [isOperandChar_iff.2 (.inl (isAlphanum_iff.2 (.inl halpha)))] at hc
    cases hc
  | number _ _ hnumber =>
    obtain ⟨w, -, hspelt⟩ := lexeme?_split hlex
    rw [hspelt.operand (isOperand_of_numberToken? hnumber) _ List.mem_cons_self] at hc
    cases hc

/-- On shorter texts, putting the sides of bare quotients into parentheses is `wrap`. -/
def WrapsBelow (n : Nat) : Prop :=
  ∀ cs ts, cs.length < n → tokens cs = some ts → ts.IsChain Follows →
    tokens (wrapQuotients cs) = some (wrap ts)

/-- A text that starts with an operand, possibly the first one of a quotient. -/
theorem WrapsBelow.run_step {c : Char} {cs : List Char} {ts : List Token}
    (ih : WrapsBelow (c :: cs).length) (hc : isOperandChar c = true)
    (h : tokens (c :: cs) = some ts) (hchain : ts.IsChain Follows) :
    tokens (wrapQuotients (c :: cs)) = some (wrap ts) := by
  obtain ⟨t, us, rfl, ht, hspells, hus, hhead⟩ := tokens_run hc h hchain
  have hlen : (operand cs).2.length < (c :: cs).length :=
    Nat.lt_succ_of_le (length_dropWhile_le isOperandChar cs)
  cases hden : denominator? (operand cs).2 with
  | none =>
    have hwrap : wrap (t :: us) = t :: wrap us :=
      wrap_cons fun u vs heq _ => not_isOperand_of_denominator? hden hus u vs heq
    rw [wrapQuotients_run hc hden, hwrap]
    exact hspells.append (breaks_wrapQuotients hhead) (ih _ _ hlen hus hchain.tail)
  | some p =>
    obtain ⟨den, rest⟩ := p
    obtain ⟨u, vs, rfl, hu, hspells', hvs, hhead'⟩ :=
      tokens_of_denominator? hden hus hchain.tail
    have hshort := length_denominator? hden
    have hrest := ih rest vs (by omega) hvs hchain.tail.tail.tail
    have hquotient := (hspells.enclose.join operates_over hspells'.enclose).append
      (breaks_wrapQuotients hhead') hrest
    rw [wrapQuotients_quotient hc hden, wrap_quotient ht hu]
    simpa using hquotient

/-- A text that starts with an operator. -/
theorem WrapsBelow.operator_step {c : Char} {cs : List Char} {ts : List Token}
    (ih : WrapsBelow (c :: cs).length) (hc : isOperandChar c = false)
    (hsep : isSeparator c = false) (h : tokens (c :: cs) = some ts)
    (hchain : ts.IsChain Follows) : tokens (wrapQuotients (c :: cs)) = some (wrap ts) := by
  obtain ⟨t, w, -, us, -, -, hspelt, -, rfl⟩ := tokens_cons_split hsep h
  have ht : t.isOperand = false := hspelt.isOperand.trans hc
  rw [wrapQuotients_cons hc, wrap_cons (by simp [ht])]
  by_cases hstars : c = '*' ∧ cs.head? = some '*'
  · obtain ⟨rfl, hhead⟩ := hstars
    obtain ⟨ds, rfl⟩ := List.head?_eq_some_iff.1 hhead
    obtain ⟨vs, hvs, heq⟩ : ∃ vs, tokens ds = some vs ∧ .power :: vs = t :: us := by
      simpa [tokens_cons hsep, lexeme?] using h
    cases heq
    have hshort : ds.length < ('*' :: '*' :: ds).length := by
      rw [List.length_cons, List.length_cons]
      omega
    have hds := ih ds us hshort hvs hchain.tail
    rw [wrapQuotients_cons hc, tokens_cons hsep]
    simp [lexeme?, hds]
  · have hstar : c = '*' → cs.head? ≠ some '*' := fun hc hhead => hstars ⟨hc, hhead⟩
    obtain ⟨hus, hop⟩ := tokens_operator hc hsep h hstar
    exact hop _ _ (fun hc => head_wrapQuotients (hstar hc))
      (ih cs us (Nat.lt_succ_self _) hus hchain.tail)

theorem wrapsBelow (n : Nat) : WrapsBelow n := by
  induction n with
  | zero =>
    intro cs ts hlen
    exact absurd hlen (Nat.not_lt_zero _)
  | succ n ih =>
    intro cs ts hlen h hchain
    cases cs with
    | nil =>
      rw [tokens_nil] at h
      cases h
      rw [wrapQuotients_nil, tokens_nil, wrap]
    | cons c cs =>
      have hbelow : WrapsBelow (c :: cs).length :=
        fun ds us hds => ih ds us (Nat.lt_of_lt_of_le hds (Nat.le_of_lt_succ hlen))
      cases hc : isOperandChar c with
      | true => exact hbelow.run_step hc h hchain
      | false =>
        cases hsep : isSeparator c with
        | true =>
          rw [wrapQuotients_cons hc, tokens_separator hsep]
          rw [tokens_separator hsep] at h
          exact hbelow cs ts (Nat.lt_succ_self _) h hchain
        | false => exact hbelow.operator_step hc hsep h hchain

/-- Putting the sides of bare quotients into parentheses is `wrap` on the tokens. -/
theorem tokens_wrapQuotients {cs : List Char} {ts : List Token} (h : tokens cs = some ts)
    (hchain : ts.IsChain Follows) : tokens (wrapQuotients cs) = some (wrap ts) :=
  wrapsBelow _ cs ts (Nat.lt_succ_self _) h hchain

/-! ## Formulas in one variable -/

/-- The names of functions are letters. -/
theorem isAlpha_of_function? {x : String} (h : (function? x).isSome = true) :
    x.toList.all Char.isAlpha = true := by
  obtain ⟨f, hf⟩ := Option.isSome_iff_exists.1 h
  obtain ⟨c, cs, hcs, hall⟩ := isAlpha_of_mem_functions (function?_eq_some_iff_mem.1 hf)
  rwa [show x.toList = c :: cs from hcs]

theorem NamesIn.isAlpha {x : String} {ts : List Token} (h : NamesIn x ts)
    (hx : ∀ c ∈ x.toList, c.isAlpha = true) :
    ∀ y, .name y ∈ ts → ∀ c ∈ y.toList, c.isAlpha = true := by
  induction ts with
  | nil => simp
  | cons t ts ih =>
    intro y hy
    rcases List.mem_cons.1 hy with rfl | hy
    · rcases h.1 with rfl | ⟨hf, -⟩
      · exact hx
      · exact List.all_eq_true.1 (isAlpha_of_function? hf)
    · exact ih h.tail y hy

theorem readIn_eq_ok_iff {text x : String} {e : Expr} :
    readIn text x = .ok e ↔ parse? text = some e ∧ ∀ y ∈ e.occurrences, y = x := by
  have hnames : ∀ d : Expr, d.freeVariables.find? (· != x) = none ↔
      ∀ y ∈ d.occurrences, y = x := by
    intro d
    simp [List.find?_eq_none, Expr.freeVariables, mem_eraseReps]
  rw [readIn, read]
  cases hparse : parse? text with
  | none => simp [bind, Except.bind]
  | some d =>
    simp only [bind, Except.bind, Option.some.injEq]
    cases hfind : d.freeVariables.find? (· != x) with
    | none =>
      simp only [pure, Except.pure, Except.ok.injEq]
      constructor
      · rintro rfl
        exact ⟨rfl, (hnames d).1 hfind⟩
      · exact fun h => h.1
    | some name =>
      constructor
      · intro h
        cases h
      · rintro ⟨rfl, hall⟩
        rw [(hnames d).2 hall] at hfind
        cases hfind

theorem readIn_of_parse?_eq_none {text x : String} (h : parse? text = none) :
    readIn text x = .error (.parse .grammar) := by
  rw [readIn, read]
  rw [h]
  rfl

/-- The tokens of a formula in one variable whose shorthand is spelt out. -/
theorem tokens_normalize {text x : String} {ts : List Token} {e : Expr}
    (hx : ∀ c ∈ x.toList, c.isAlpha = true) (h : tokens text.toList = some ts)
    (hd : Derives .sum ts e) (hnames : NamesIn x ts) :
    tokens (normalize text).toList = some (wrap ts) := by
  rw [normalize, String.toList_ofList,
    spellProducts_eq_self (isChain_of_tokens h hd.follows (hnames.isAlpha hx))]
  exact tokens_wrapQuotients h hd.follows

/-- Whether a bare quotient in the text has the name of a function below the bar. -/
def hidesCall (text : String) : Bool := ((tokens text.toList).map dividesByCall).getD false

/-- Spelling out the shorthand of a formula in one variable gives the same formula, unless a bare
quotient has the name of a function below the bar.  In that case, and in no other, the result is not
a formula. -/
theorem normalized_formula_is_read {text x : String} {e : Expr}
    (hx : x.toList.all Char.isAlpha = true) (hf : function? x = none)
    (h : readIn text x = .ok e) :
    readIn (normalize text) x =
      if hidesCall text then .error (.parse .grammar) else .ok e := by
  obtain ⟨hparse, hocc⟩ := readIn_eq_ok_iff.1 h
  obtain ⟨ts, hts, hd⟩ := parse?_eq_some_iff.1 hparse
  have hnames := hd.namesIn hocc
  rw [List.all_eq_true] at hx
  have hwrap := tokens_normalize hx hts hd hnames
  have hides : hidesCall text = dividesByCall ts := by rw [hidesCall, hts]; rfl
  rw [hides]
  cases hcall : dividesByCall ts with
  | true =>
    refine readIn_of_parse?_eq_none ?_
    rw [Option.eq_none_iff_forall_ne_some]
    intro d hparse'
    obtain ⟨us, hus, hd'⟩ := parse?_eq_some_iff.1 hparse'
    rw [hwrap] at hus
    cases hus
    exact not_isChain_wrap hf hnames hcall hd'.follows
  | false =>
    have hd' := hd.parens (parens_wrap hf hnames hcall)
    exact readIn_eq_ok_iff.2 ⟨parse?_eq_some_iff.2 ⟨_, hwrap, hd'⟩, hocc⟩

theorem normalized_formula_is_read_half :
    let e : Expr := .sub (.const 7) (.div (.var "Q") (.const 2))
    "Q".toList.all Char.isAlpha = true ∧ function? "Q" = none ∧
      readIn "7 - Q / 2" "Q" = .ok e ∧
      readIn (normalize "7 - Q / 2") "Q" =
        if hidesCall "7 - Q / 2" then .error (.parse .grammar) else .ok e := by
  have htokens : tokens "7 - Q / 2".toList = some
      ([.number 7] ++ .minus :: ([.name "Q"] ++ .over :: [.number 2])) := by cbv
  have hderives : Derives .sum ([.number 7] ++ .minus :: ([.name "Q"] ++ .over :: [.number 2]))
      (.sub (.const 7) (.div (.var "Q") (.const 2))) :=
    .minus (.ofProduct (.ofSigned (Derives.number 7).primary_signed))
      (.divided (.ofSigned (Derives.name "Q").primary_signed) (Derives.number 2).primary_signed)
  have h : readIn "7 - Q / 2" "Q" = .ok (.sub (.const 7) (.div (.var "Q") (.const 2))) :=
    readIn_eq_ok_iff.2 ⟨parse?_eq_some_iff.2 ⟨_, htokens, hderives⟩, by decide⟩
  exact ⟨rfl, rfl, h, normalized_formula_is_read rfl rfl h⟩

/-- The name of a function below the bar is parted from its argument. -/
theorem quotient_by_sine_is_not_read :
    readIn "Q/sin(Q)" "Q" = .ok (.div (.var "Q") (.call .sin (.var "Q"))) ∧
      ¬ ∃ e, readIn (normalize "Q/sin(Q)") "Q" = .ok e := by
  have htokens : tokens "Q/sin(Q)".toList = some
      ([.name "Q"] ++ .over :: (.name "sin" :: .lparen :: [.name "Q"] ++ [.rparen])) := by cbv
  have hargument : Derives .sum [.name "Q"] (.var "Q") :=
    .ofProduct (.ofSigned (Derives.name "Q").primary_signed)
  have hderives : Derives .sum
      ([.name "Q"] ++ .over :: (.name "sin" :: .lparen :: [.name "Q"] ++ [.rparen]))
      (.div (.var "Q") (.call .sin (.var "Q"))) :=
    .ofProduct (.divided (.ofSigned (Derives.name "Q").primary_signed)
      (Derives.call rfl hargument).primary_signed)
  refine ⟨readIn_eq_ok_iff.2 ⟨parse?_eq_some_iff.2 ⟨_, htokens, hderives⟩, by decide⟩, ?_⟩
  rintro ⟨e, he⟩
  have hwrapped : tokens (normalize "Q/sin(Q)").toList = some [.lparen, .name "Q", .rparen, .over,
      .lparen, .name "sin", .rparen, .lparen, .name "Q", .rparen] := by cbv
  obtain ⟨ts, hts, hd⟩ := parse?_eq_some_iff.1 (readIn_eq_ok_iff.1 he).1
  rw [hwrapped] at hts
  cases hts
  exact absurd hd.follows (by simp [Follows, Token.closes, Token.opens, Token.isFunction])

end MarketAlgebra.Formula
