import MarketAlgebra.Proofs.Formula.Shorthand

/-!
# Shorthand is spelt out once

What `normalize` has spelt out holds no shorthand: no digit meets a letter in it
(`isChain_spellProducts`), and no bare operand is divided by another one (`NoQuotient`).  A text
without shorthand stays as it is (`normalize_eq_self`), so doing it twice is doing it once
(`normalize_normalize`).

The signs of products could as well be put in by two replacements, one for a digit in front of a
letter and then one for a letter in front of a digit (`spellProducts_eq`).  Each of them goes on
behind the two characters of a match, and no match is missed, because no character is both.

`Wraps` says how a text is gone through for its quotients.  The parentheses around the operands
make no new quotient: whatever stands in front of a slash or behind it in the result stood there
before, or is one of them.
-/

namespace MarketAlgebra.Formula

variable {c : Char} {cs ds den rest run : List Char}

/-! ## Products -/

/-- A sign stands wherever a digit and a letter meet. -/
theorem isChain_spellProducts (cs : List Char) :
    (spellProducts cs).IsChain fun c d => adjoins c d = false := by
  induction cs with
  | nil => exact .nil
  | cons c cs ih =>
    cases cs with
    | nil => exact .singleton c
    | cons d cs =>
      rw [spellProducts]
      split
      next =>
        refine .cons_cons (adjoins_of_right rfl c) (List.isChain_cons.2 ⟨fun e _ => ?_, ih⟩)
        exact adjoins_of_left rfl e
      next h =>
        have hhead : ∀ e ∈ (spellProducts (d :: cs)).head?, e = d := by
          cases cs with
          | nil => simp [spellProducts]
          | cons e cs =>
            rw [spellProducts]
            split <;> simp
        refine List.isChain_cons.2 ⟨fun e he => ?_, ih⟩
        rw [hhead e he]
        simpa using h

/-- The text with a `*` between two characters of given kinds, from left to right.  The search goes
on behind the two characters. -/
def spellBetween (p q : Char → Bool) : List Char → List Char
  | c :: d :: cs =>
    if p c && q d then c :: '*' :: d :: spellBetween p q cs else c :: spellBetween p q (d :: cs)
  | cs => cs

section

variable {p q : Char → Bool}

theorem spellBetween_cons (h : p c = false) (cs : List Char) :
    spellBetween p q (c :: cs) = c :: spellBetween p q cs := by
  cases cs with
  | nil => rfl
  | cons d cs => rw [spellBetween, h, Bool.false_and, if_neg Bool.false_ne_true]

/-- Where no character is of both kinds, the search may go on with the second one. -/
theorem spellBetween_cons_cons (hpq : ∀ c, q c = true → p c = false) (c d : Char)
    (cs : List Char) : spellBetween p q (c :: d :: cs) =
      if p c && q d then c :: '*' :: spellBetween p q (d :: cs)
      else c :: spellBetween p q (d :: cs) := by
  rw [spellBetween]
  split
  next h =>
    rw [Bool.and_eq_true] at h
    rw [spellBetween_cons (hpq d h.2)]
  next => rfl

/-- The first character stays in front. -/
theorem exists_spellBetween_cons (p q : Char → Bool) (c : Char) (cs : List Char) :
    ∃ ds, spellBetween p q (c :: cs) = c :: ds := by
  cases cs with
  | nil => exact ⟨[], rfl⟩
  | cons d cs =>
    rw [spellBetween]
    split <;> exact ⟨_, rfl⟩

end

/-- Two replacements put in all signs of products. -/
theorem spellProducts_eq (cs : List Char) : spellProducts cs =
    spellBetween Char.isAlpha Char.isDigit (spellBetween Char.isDigit Char.isAlpha cs) := by
  have hdigit : ∀ c : Char, c.isDigit = true → c.isAlpha = false :=
    fun c => isAlpha_eq_false_of_isDigit
  have halpha : ∀ c : Char, c.isAlpha = true → c.isDigit = false := fun c h => by
    rw [← Bool.not_eq_true]
    exact fun hd => absurd h (by simp [hdigit c hd])
  induction cs with
  | nil => rfl
  | cons c cs ih =>
    cases cs with
    | nil => rfl
    | cons d cs =>
      obtain ⟨ds, hds⟩ := exists_spellBetween_cons Char.isDigit Char.isAlpha d cs
      rw [spellProducts, ih, spellBetween_cons_cons halpha, adjoins]
      cases hcd : c.isDigit && d.isAlpha with
      | true =>
        rw [Bool.and_eq_true] at hcd
        rw [Bool.true_or, if_pos rfl, if_pos rfl, spellBetween_cons (hdigit c hcd.1),
          spellBetween_cons (p := Char.isAlpha) (c := '*') rfl]
      | false =>
        rw [Bool.false_or, if_neg Bool.false_ne_true, hds, spellBetween_cons_cons hdigit]

/-! ## Denominators -/

theorem isBlank_of_isOperandChar (h : isOperandChar c = true) : Text.isBlank c = false := by
  rcases isOperandChar_iff.1 h with h | rfl
  · rw [isAlphanum_iff, isAlpha_iff, isDigit_iff] at h
    rw [← Bool.not_eq_true]
    simp only [Text.isBlank, Text.blankRanges, List.any_cons, List.any_nil, Bool.or_eq_true,
      Bool.and_eq_true, decide_eq_true_eq, Bool.false_eq_true, or_false]
    omega
  · decide

theorem denominator?_blank (h : Text.isBlank c = true) (cs : List Char) :
    denominator? (c :: cs) = denominator? cs := by
  rw [denominator?, List.dropWhile_cons_of_pos h, ← denominator?]

theorem denominator?_slash (cs : List Char) :
    denominator? ('/' :: cs) = none ↔ (operand (cs.dropWhile Text.isBlank)).1 = [] := by
  have hslash : ('/' :: cs).dropWhile Text.isBlank = '/' :: cs := rfl
  simp [denominator?, hslash]

/-- Only a slash behind blanks has a denominator. -/
theorem denominator?_other (hc : Text.isBlank c = false) (hslash : c ≠ '/') (cs : List Char) :
    denominator? (c :: cs) = none := by
  rw [denominator?, List.dropWhile_cons_of_neg (by simp [hc])]
  split
  next heq =>
    cases heq
    exact absurd rfl hslash
  next => rfl

theorem denominator?_operand (h : isOperandChar c = true) (cs : List Char) :
    denominator? (c :: cs) = none := by
  refine denominator?_other (isBlank_of_isOperandChar h) ?_ cs
  rintro rfl
  cases h

/-- A denominator is a run of operand characters, and it is a part of the text. -/
theorem denominator?_split (h : denominator? cs = some (den, rest)) :
    (∃ mid, cs = mid ++ (den ++ rest)) ∧ ∀ c ∈ den, isOperandChar c = true := by
  rw [denominator?] at h
  split at h
  next ds hcs =>
    obtain ⟨-, heq⟩ := Option.ite_none_left_eq_some.1 h
    cases heq
    refine ⟨⟨cs.takeWhile Text.isBlank ++ '/' :: ds.takeWhile Text.isBlank, ?_⟩, ?_⟩
    · rw [List.takeWhile_append_dropWhile, List.append_assoc, List.cons_append,
        List.takeWhile_append_dropWhile, ← hcs, List.takeWhile_append_dropWhile]
    · exact fun c hc => List.mem_takeWhile_imp hc
  next => cases h

/-! ## How quotients are found -/

/-- The second text has the operands of the bare quotients of the first one in parentheses. -/
inductive Wraps : List Char → List Char → Prop
| nil :
  Wraps [] []
| other {c : Char} {cs ds : List Char} :
  isOperandChar c = false →
  Wraps cs ds →
  Wraps (c :: cs) (c :: ds)
| run {run rest ds : List Char} :
  run ≠ [] →
  (∀ c ∈ run, isOperandChar c = true) →
  denominator? rest = none →
  Wraps rest ds →
  Wraps (run ++ rest) (run ++ ds)
| quotient {run behind den rest ds : List Char} :
  run ≠ [] →
  (∀ c ∈ run, isOperandChar c = true) →
  denominator? behind = some (den, rest) →
  Wraps rest ds →
  Wraps (run ++ behind) ('(' :: (run ++ ')' :: '/' :: '(' :: (den ++ ')' :: ds)))

/-- Every text is gone through in this way. -/
theorem wraps_wrapQuotients (cs : List Char) : Wraps cs (wrapQuotients cs) := by
  induction hn : cs.length using Nat.strongRecOn generalizing cs with
  | ind n ih =>
    cases cs with
    | nil =>
      rw [wrapQuotients_nil]
      exact .nil
    | cons c cs =>
      cases hc : isOperandChar c with
      | false =>
        rw [wrapQuotients_cons hc]
        exact .other hc (ih cs.length (by simp [← hn]) cs rfl)
      | true =>
        have hsplit : c :: cs = (c :: (operand cs).1) ++ (operand cs).2 := by
          rw [operand, List.cons_append, List.takeWhile_append_dropWhile]
        have hrun : ∀ d ∈ c :: (operand cs).1, isOperandChar d = true := by
          intro d hd
          rcases List.mem_cons.1 hd with rfl | hd
          · exact hc
          · exact List.mem_takeWhile_imp hd
        have hshort : (operand cs).2.length < n := by
          rw [← hn]
          exact Nat.lt_succ_of_le (length_dropWhile_le isOperandChar cs)
        cases hden : denominator? (operand cs).2 with
        | none =>
          have hrest := Wraps.run (List.cons_ne_nil c _) hrun hden (ih _ hshort _ rfl)
          rwa [wrapQuotients_run hc hden, hsplit]
        | some p =>
          obtain ⟨den, rest⟩ := p
          have hlength := length_denominator? hden
          have hrest := Wraps.quotient (List.cons_ne_nil c _) hrun hden
            (ih rest.length (by omega) rest rfl)
          rw [wrapQuotients_quotient hc hden, hsplit]
          simpa using hrest

namespace Wraps

/-- What stands in front stays there, or a parenthesis is put in front of it. -/
theorem head? (h : Wraps cs ds) : ds.head? = cs.head? ∨ ds.head? = some '(' := by
  cases h with
  | nil | other => exact .inl rfl
  | run hne =>
    obtain ⟨c, run, rfl⟩ := List.exists_cons_of_ne_nil hne
    exact .inl rfl
  | quotient => exact .inr rfl

/-- No digit comes to meet a letter. -/
theorem isChain (h : Wraps cs ds) (hcs : cs.IsChain fun c d => adjoins c d = false) :
    ds.IsChain fun c d => adjoins c d = false := by
  induction h with
  | nil => exact .nil
  | other hc _ ih =>
    exact List.isChain_cons.2 ⟨fun d _ => adjoins_of_left hc d, ih (List.isChain_cons.1 hcs).2⟩
  | run _ _ _ hrest ih =>
    obtain ⟨hrun, hrest', hmeet⟩ := List.isChain_append.1 hcs
    refine hrun.append (ih hrest') fun c hc d hd => ?_
    rcases hrest.head? with hhead | hhead
    · exact hmeet c hc d (hhead ▸ hd)
    · obtain rfl : '(' = d := Option.some.inj (hhead.symm.trans hd)
      exact adjoins_of_right rfl c
  | quotient _ _ hden _ ih =>
    obtain ⟨⟨mid, rfl⟩, -⟩ := denominator?_split hden
    obtain ⟨hrun, hbehind, -⟩ := List.isChain_append.1 hcs
    obtain ⟨hden, hrest, -⟩ := List.isChain_append.1 (List.isChain_append.1 hbehind).2.1
    have hparen : ∀ {ds : List Char}, ds.IsChain (fun c d => adjoins c d = false) →
        ∀ c, isOperandChar c = false → (c :: ds).IsChain fun c d => adjoins c d = false :=
      fun hds c hc => List.isChain_cons.2 ⟨fun d _ => adjoins_of_left hc d, hds⟩
    have hjoin : ∀ {run ds : List Char}, run.IsChain (fun c d => adjoins c d = false) →
        ds.IsChain (fun c d => adjoins c d = false) →
        (run ++ ')' :: ds).IsChain fun c d => adjoins c d = false := by
      intro run ds hrun hds
      refine hrun.append (hparen hds ')' rfl) fun c _ d hd => ?_
      obtain rfl : ')' = d := Option.some.inj hd
      exact adjoins_of_right rfl c
    exact hparen (hjoin hrun (hparen (hparen (hjoin hden (ih hrest)) '(' rfl) '/' rfl)) '(' rfl

/-- No operand comes to stand behind blanks. -/
theorem operand_eq_nil (h : Wraps cs ds) (hcs : (operand (cs.dropWhile Text.isBlank)).1 = []) :
    (operand (ds.dropWhile Text.isBlank)).1 = [] := by
  induction h with
  | nil => rfl
  | @other c cs ds hc _ ih =>
    cases hblank : Text.isBlank c with
    | true =>
      rw [List.dropWhile_cons_of_pos hblank] at hcs ⊢
      exact ih hcs
    | false => rw [List.dropWhile_cons_of_neg (by simp [hblank]), operand_cons_of_not hc]
  | run hne hrun | quotient hne hrun =>
    obtain ⟨c, run, rfl⟩ := List.exists_cons_of_ne_nil hne
    have hc := hrun c List.mem_cons_self
    have hblank : ¬Text.isBlank c = true := by simp [isBlank_of_isOperandChar hc]
    rw [List.cons_append, List.dropWhile_cons_of_neg hblank, operand_cons hc] at hcs
    cases hcs

/-- No denominator comes to stand behind a numerator. -/
theorem denominator?_eq_none (h : Wraps cs ds) (hcs : denominator? cs = none) :
    denominator? ds = none := by
  induction h with
  | nil => rfl
  | @other c cs ds _ hrest ih =>
    cases hblank : Text.isBlank c with
    | true =>
      rw [denominator?_blank hblank] at hcs ⊢
      exact ih hcs
    | false =>
      by_cases hslash : c = '/'
      · subst hslash
        rw [denominator?_slash] at hcs ⊢
        exact hrest.operand_eq_nil hcs
      · exact denominator?_other hblank hslash ds
  | run hne hrun =>
    obtain ⟨c, run, rfl⟩ := List.exists_cons_of_ne_nil hne
    exact denominator?_operand (hrun c List.mem_cons_self) _
  | quotient => exact denominator?_other rfl (by decide) _

end Wraps

/-! ## Texts without shorthand -/

/-- No operand character is divided by another operand. -/
def NoQuotient : List Char → Prop
  | [] => True
  | c :: cs => (isOperandChar c = true → denominator? cs = none) ∧ NoQuotient cs

theorem NoQuotient.cons (hc : isOperandChar c = false) (h : NoQuotient cs) :
    NoQuotient (c :: cs) :=
  ⟨fun hop => absurd hop (by simp [hc]), h⟩

/-- A run that is not divided may stand in front. -/
theorem NoQuotient.append (hrun : ∀ c ∈ run, isOperandChar c = true)
    (hden : denominator? rest = none) (h : NoQuotient rest) : NoQuotient (run ++ rest) := by
  induction run with
  | nil => exact h
  | cons c run ih =>
    obtain ⟨-, hrun⟩ := List.forall_mem_cons.1 hrun
    refine ⟨fun _ => ?_, ih hrun⟩
    cases run with
    | nil => exact hden
    | cons d run => exact denominator?_operand (hrun d List.mem_cons_self) _

/-- A run in front is not divided. -/
theorem NoQuotient.behind (hne : run ≠ []) (hrun : ∀ c ∈ run, isOperandChar c = true)
    (h : NoQuotient (run ++ rest)) : denominator? rest = none ∧ NoQuotient rest := by
  induction run with
  | nil => exact absurd rfl hne
  | cons c run ih =>
    obtain ⟨hc, hrun⟩ := List.forall_mem_cons.1 hrun
    cases run with
    | nil => exact ⟨h.1 hc, h.2⟩
    | cons d run => exact ih (List.cons_ne_nil d run) hrun h.2

/-- No bare quotient is left. -/
theorem Wraps.noQuotient (h : Wraps cs ds) : NoQuotient ds := by
  induction h with
  | nil => trivial
  | other hc _ ih => exact ih.cons hc
  | run _ hrun hden hrest ih => exact ih.append hrun (hrest.denominator?_eq_none hden)
  | quotient _ hrun hden _ ih =>
    have hclose : ∀ ds, denominator? (')' :: ds) = none := denominator?_other rfl (by decide)
    have hden := (ih.cons rfl).append (denominator?_split hden).2 (hclose _)
    exact (((((hden.cons rfl).cons rfl).cons rfl).append hrun (hclose _)).cons rfl)

/-- Without bare quotients nothing is put into parentheses. -/
theorem Wraps.eq_self (h : Wraps cs ds) (hcs : NoQuotient cs) : ds = cs := by
  induction h with
  | nil => rfl
  | other _ _ ih => rw [ih hcs.2]
  | run hne hrun _ _ ih => rw [ih (hcs.behind hne hrun).2]
  | quotient hne hrun hden =>
    rw [(hcs.behind hne hrun).1] at hden
    cases hden

/-- A text without shorthand stays as it is. -/
theorem normalize_eq_self {text : String}
    (hproducts : text.toList.IsChain fun c d => adjoins c d = false)
    (hquotients : NoQuotient text.toList) : normalize text = text := by
  rw [normalize, spellProducts_eq_self hproducts, (wraps_wrapQuotients _).eq_self hquotients,
    String.ofList_toList]

/-- Shorthand that is spelt out twice is spelt out once, in every text. -/
theorem normalize_normalize (text : String) : normalize (normalize text) = normalize text := by
  have htext : (normalize text).toList = wrapQuotients (spellProducts text.toList) :=
    String.toList_ofList
  have hwraps := wraps_wrapQuotients (spellProducts text.toList)
  rw [← htext] at hwraps
  exact normalize_eq_self (hwraps.isChain (isChain_spellProducts _)) hwraps.noQuotient

example : normalize "2Q/b2 / 3c" = "2*(Q)/(b)*(2)/(3)*c" := by cbv

end MarketAlgebra.Formula
