import MarketAlgebra.Formula.Words
import MarketAlgebra.Proofs.Formula.Shorthand

/-!
# Words and names

A text is searched for a word without being parsed.  Its words are not its tokens: a point divides
a number into two words, and letters of any script belong to words.  In a formula a word that does
not start with a digit is still a name, and every name is a word (`mem_words_iff_mem_tokens`), for
no operand follows another one there, so the name ends where its word does.

A name that denotes no function is a variable of the formula (`Derives.mem_name_iff`).  So the
search finds a word exactly when the expression mentions it (`hasWord_eq_mentions`).
-/

namespace MarketAlgebra.Formula

variable {c : Char} {cs w rest : List Char} {t : Token} {ts : List Token} {x : String} {e : Expr}

/-! ## Cutting a text into words -/

theorem words_cons_of_not (h : isWordChar c = false) (cs : List Char) :
    words (c :: cs) = [] :: words cs := by
  rw [words, if_neg (by simp [h])]

theorem words_cons {ws : List (List Char)} (h : isWordChar c = true) (hcs : words cs = w :: ws) :
    words (c :: cs) = (c :: w) :: ws := by
  rw [words, if_pos h, hcs]

/-- There is a first word, though it may be empty. -/
theorem exists_words_cons (cs : List Char) : ∃ w ws, words cs = w :: ws := by
  induction cs with
  | nil => exact ⟨[], [], rfl⟩
  | cons c cs ih =>
    obtain ⟨w, ws, hcs⟩ := ih
    cases hc : isWordChar c with
    | true => exact ⟨c :: w, ws, words_cons hc hcs⟩
    | false => exact ⟨[], words cs, words_cons_of_not hc cs⟩

/-- The characters of words are word characters of the text. -/
theorem mem_of_mem_words (hw : w ∈ words cs) : ∀ c ∈ w, c ∈ cs ∧ isWordChar c = true := by
  induction cs generalizing w with
  | nil =>
    obtain rfl : w = [] := List.mem_singleton.1 hw
    simp
  | cons d cs ih =>
    cases hd : isWordChar d with
    | false =>
      rw [words_cons_of_not hd, List.mem_cons] at hw
      rcases hw with rfl | hw
      · simp
      · exact fun c hc => ⟨List.mem_cons_of_mem d (ih hw c hc).1, (ih hw c hc).2⟩
    | true =>
      obtain ⟨v, ws, hcs⟩ := exists_words_cons cs
      rw [hcs] at ih
      rw [words_cons hd hcs, List.mem_cons] at hw
      rcases hw with rfl | hw
      · intro c hc
        rcases List.mem_cons.1 hc with rfl | hc
        · exact ⟨List.mem_cons_self, hd⟩
        · have hv := ih List.mem_cons_self c hc
          exact ⟨List.mem_cons_of_mem d hv.1, hv.2⟩
      · have hin := ih (List.mem_cons_of_mem v hw)
        exact fun c hc => ⟨List.mem_cons_of_mem d (hin c hc).1, (hin c hc).2⟩

/-- A text of word characters is one word. -/
theorem words_eq_singleton (h : ∀ c ∈ cs, isWordChar c = true) : words cs = [cs] := by
  induction cs with
  | nil => rfl
  | cons c cs ih =>
    obtain ⟨hc, hcs⟩ := List.forall_mem_cons.1 h
    exact words_cons hc (ih hcs)

/-- A text may be cut in front of a character that belongs to no word. -/
theorem words_append (h : ∀ c, rest.head? = some c → isWordChar c = false) (cs : List Char) :
    words (cs ++ rest) = words cs ++ (words rest).tail := by
  induction cs with
  | nil =>
    cases rest with
    | nil => rfl
    | cons c rest =>
      rw [List.nil_append, words_cons_of_not (h c rfl)]
      rfl
  | cons c cs ih =>
    cases hc : isWordChar c with
    | false =>
      rw [List.cons_append, words_cons_of_not hc, words_cons_of_not hc, ih, List.cons_append]
    | true =>
      obtain ⟨w, ws, hcs⟩ := exists_words_cons cs
      rw [hcs, List.cons_append] at ih
      rw [List.cons_append, words_cons hc ih, words_cons hc hcs, List.cons_append]

section

variable (hw : w ≠ [])
include hw

theorem mem_words_cons_of_not (hc : isWordChar c = false) (cs : List Char) :
    w ∈ words (c :: cs) ↔ w ∈ words cs := by
  rw [words_cons_of_not hc, List.mem_cons, or_iff_right hw]

/-- Characters that belong to no word may be left out in front. -/
theorem mem_words_skip (hcs : ∀ c ∈ cs, isWordChar c = false) :
    w ∈ words (cs ++ rest) ↔ w ∈ words rest := by
  induction cs with
  | nil => rfl
  | cons c cs ih =>
    obtain ⟨hc, hcs⟩ := List.forall_mem_cons.1 hcs
    rw [List.cons_append, mem_words_cons_of_not hw hc, ih hcs]

theorem mem_words_append (h : ∀ c, rest.head? = some c → isWordChar c = false)
    (cs : List Char) : w ∈ words (cs ++ rest) ↔ w ∈ words cs ∨ w ∈ words rest := by
  have htail : w ∈ (words rest).tail ↔ w ∈ words rest := by
    cases rest with
    | nil => simp [words, hw]
    | cons c rest => rw [mem_words_cons_of_not hw (h c rfl), words_cons_of_not (h c rfl), List.tail]
  rw [words_append h, List.mem_append, htail]

end

/-! ## Words and tokens -/

theorem isWordChar_of_isAlphanum (h : c.isAlphanum = true) : isWordChar c = true := by
  rw [isWordChar, Text.isAlphanumeric_of_isAlphanum h, Bool.true_or]

theorem isWordChar_of_isSeparator (h : isSeparator c = true) : isWordChar c = false := by
  simp only [isSeparator, Bool.or_eq_true, beq_iff_eq] at h
  rcases h with ((rfl | rfl) | rfl) | rfl <;> decide

theorem isWordChar_of_operator? (h : operator? c = some t) : isWordChar c = false := by
  simpa using operator?_all h (p := fun q => !isWordChar q.1) rfl

/-- Where a formula goes on with a word character, it goes on with an operand. -/
theorem isOperandChar_of_tokens (h : tokens (c :: cs) = some ts) (hc : isWordChar c = true) :
    isOperandChar c = true := by
  have hsep : isSeparator c = false := by
    rw [← Bool.not_eq_true]
    intro hsep
    rw [isWordChar_of_isSeparator hsep] at hc
    cases hc
  obtain ⟨t, w, rest, us, hlex, -, hspelt, -, -⟩ := tokens_cons_split hsep h
  cases lexes_of_lexeme? hlex with
  | stars hstar =>
    subst hstar
    revert hc
    decide
  | operator hop =>
    rw [isWordChar_of_operator? hop] at hc
    cases hc
  | name halpha => exact isOperandChar_iff.2 (.inl (isAlphanum_iff.2 (.inl halpha)))
  | number _ _ hnumber =>
    exact hspelt.operand (isOperand_of_numberToken? hnumber) c List.mem_cons_self

/-- Operators have no word characters. -/
theorem isWordChar_of_lexeme? (h : lexeme? (c :: cs) = some (t, rest))
    (ht : t.isOperand = false) :
    ∃ w, cs = w ++ rest ∧ ∀ d ∈ c :: w, isWordChar d = false := by
  cases lexes_of_lexeme? h with
  | stars hc hcs =>
    subst hc hcs
    refine ⟨['*'], rfl, fun d hd => ?_⟩
    obtain rfl : d = '*' := by simpa using hd
    rfl
  | operator hop =>
    refine ⟨[], rfl, fun d hd => ?_⟩
    rw [List.mem_singleton.1 hd]
    exact isWordChar_of_operator? hop
  | name => cases ht
  | number _ _ hnumber =>
    rw [isOperand_of_numberToken? hnumber] at ht
    cases ht

section

variable (hx : ∃ c cs, x.toList = c :: cs ∧ c.isDigit = false)
include hx

/-- The word of a name is the name, and a number has words of digits only. -/
theorem Token.SpeltBy.mem_words_iff (h : t.SpeltBy w) (ht : t.isOperand = true) :
    x.toList ∈ words w ↔ t = .name x := by
  cases t with
  | number q =>
    refine iff_of_false (fun hmem => ?_) nofun
    obtain ⟨c, cs, hcs, hdigit⟩ := hx
    obtain ⟨hc, hword⟩ := mem_of_mem_words hmem c (by simp [hcs])
    rcases h c hc with hc | rfl
    · rw [hc] at hdigit
      cases hdigit
    · revert hword
      decide
  | name y =>
    obtain ⟨rfl, hall⟩ := h
    rw [words_eq_singleton fun c hc => isWordChar_of_isAlphanum (hall c hc), List.mem_singleton,
      String.toList_inj, Token.name.injEq, eq_comm]
  | _ => cases ht

/-- In a formula a word that does not start with a digit is a name. -/
theorem mem_words_iff_mem_tokens (h : tokens cs = some ts) (hchain : ts.IsChain Follows) :
    x.toList ∈ words cs ↔ .name x ∈ ts := by
  have hne : x.toList ≠ [] := by
    obtain ⟨c, cs, hcs, -⟩ := hx
    rw [hcs]
    exact List.cons_ne_nil c cs
  induction hn : cs.length using Nat.strongRecOn generalizing cs ts with
  | ind n ih =>
    cases cs with
    | nil =>
      rw [tokens_nil] at h
      cases h
      simp [words, hne]
    | cons c cs =>
      cases hsep : isSeparator c with
      | true =>
        rw [tokens_separator hsep] at h
        rw [mem_words_cons_of_not hne (isWordChar_of_isSeparator hsep)]
        exact ih cs.length (by simp [← hn]) h hchain rfl
      | false =>
        obtain ⟨t, w, rest, us, hlex, hcs, hspelt, hus, rfl⟩ := tokens_cons_split hsep h
        have hshort : rest.length < n := hn ▸ length_lexeme? hlex
        have hrest : x.toList ∈ words rest ↔ .name x ∈ us := ih _ hshort hus hchain.tail rfl
        cases ht : t.isOperand with
        | true =>
          have hhead : ∀ d, rest.head? = some d → isWordChar d = false := by
            intro d hd
            obtain ⟨ds, rfl⟩ := List.head?_eq_some_iff.1 hd
            rw [← Bool.not_eq_true]
            intro hword
            have hop := not_isOperandChar_of_follows ht hus hchain d hd
            rw [isOperandChar_of_tokens hus hword] at hop
            cases hop
          rw [hcs, ← List.cons_append, mem_words_append hne hhead, hspelt.mem_words_iff hx ht,
            hrest, List.mem_cons, eq_comm (a := t)]
        | false =>
          obtain ⟨v, hv, hskip⟩ := isWordChar_of_lexeme? hlex ht
          have hname : .name x ≠ t := by
            rintro rfl
            cases ht
          rw [hv, ← List.cons_append, mem_words_skip hne hskip, hrest, List.mem_cons,
            or_iff_right hname]

end

/-! ## Names and variables -/

/-- A name that denotes no function is a variable. -/
theorem Derives.mem_name_iff {l : Level} (h : Derives l ts e) (hf : function? x = none) :
    .name x ∈ ts ↔ x ∈ e.occurrences := by
  induction h with
  | ofProduct _ ih | ofSigned _ ih | ofPower _ ih | ofPrimary _ ih => exact ih
  | plus _ _ iha ihb | minus _ _ iha ihb | times _ _ iha ihb | divided _ _ iha ihb
  | raise _ _ iha ihb => simp [Expr.occurrences, iha, ihb]
  | negative _ ih | positive _ ih | enclose _ ih => simpa [Expr.occurrences] using ih
  | number c => simp [Expr.occurrences]
  | name y => simp [Expr.occurrences]
  | @call y f _ _ hy _ ih =>
    have hne : x ≠ y := by
      rintro rfl
      rw [hy] at hf
      cases hf
    simpa [occurrences_of_function? hy, hne] using ih

/-- The search finds a word in a formula exactly when the expression mentions it, for words that
neither start with a digit nor denote a function. -/
theorem hasWord_eq_mentions {text : String}
    (hx : ∃ c cs, x.toList = c :: cs ∧ c.isDigit = false) (hf : function? x = none)
    (h : parse? text = some e) : hasWord text x = e.mentions x := by
  obtain ⟨ts, hts, hd⟩ := parse?_eq_some_iff.1 h
  rw [Bool.eq_iff_iff, hasWord, List.contains_iff_mem, mem_words_iff_mem_tokens hx hts hd.follows,
    hd.mem_name_iff hf, Expr.mentions_iff_mem_occurrences]

end MarketAlgebra.Formula
