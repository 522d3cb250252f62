import Mathlib
import MarketAlgebra.Formula.Reading
import MarketAlgebra.Proofs.Formula.Parentheses
import MarketAlgebra.Proofs.Formula.Writing

/-!
# The grammar of texts

`Phrase` is the grammar of formulas over the words of a text, from the spelling of its numbers to
the names of its functions.  `CutInto` says how a text falls into words: at each place the longest
word stands, and separators may stand between words.  Neither of them looks at how texts are read.

A text is read as an expression exactly when it is cut into words that are a phrase for this
expression (`read_eq_ok_iff_phrase`).  At each place the longest word is found (`lexeme?_spec`), and
a word is found wherever there is one (`isSome_lexeme?`), so the tokens of a text are its words with
their meanings (`CutInto.tokens`, `exists_cutInto`).  On tokens, the grammar is the one of
`MarketAlgebra.Proofs.Formula.Grammar` (`Phrase.derives`, `Derives.phrase`).

A phrase says which value its numbers have.  Texts of up to `2 ^ 32` characters are read with the
exact values of their decimals (`exactDecimal`).  In longer ones a number may have more digits
behind its point than are counted, and is larger than it is written (`read_one_behind_zeros`).
-/

namespace MarketAlgebra.Formula

/-! ## Words -/

/-- The texts of numbers, with the digits before and behind the point: digits, or digits with a
point before, between or behind them. -/
inductive Numeral : String → List Char → List Char → Prop
| whole {ds : List Char} :
  ds ≠ [] →
  (∀ c ∈ ds, c.isDigit = true) →
  Numeral (String.ofList ds) ds []
| pointed {ds fs : List Char} :
  ds ≠ [] ∨ fs ≠ [] →
  (∀ c ∈ ds, c.isDigit = true) →
  (∀ c ∈ fs, c.isDigit = true) →
  Numeral (String.ofList (ds ++ '.' :: fs)) ds fs

/-- The operators and parentheses.  A power has two of them. -/
def symbols : List (String × Token) :=
  [("+", .plus), ("-", .minus), ("*", .times), ("/", .over), ("^", .power), ("**", .power),
    ("(", .lparen), (")", .rparen)]

/-- The words of formulas: numbers, names, operators and parentheses. -/
def IsWord (w : String) : Prop :=
  (∃ ds fs, Numeral w ds fs) ∨ IsName w ∨ w ∈ ["+", "-", "*", "/", "^", "**", "(", ")"]

/-- The text falls into the words.  Each word is the longest one at its place, and separators may
stand between words, in front of them and behind them. -/
inductive CutInto : List Char → List String → Prop
| nil :
  CutInto [] []
| separator {c : Char} {cs : List Char} {ws : List String} :
  c ∈ [' ', '\t', '\n', '\r'] →
  CutInto cs ws →
  CutInto (c :: cs) ws
| word {w : String} {rest : List Char} {ws : List String} :
  IsWord w →
  (∀ v, IsWord v → v.toList <+: w.toList ++ rest → v.length ≤ w.length) →
  CutInto rest ws →
  CutInto (w.toList ++ rest) (w :: ws)

/-! ## Phrases -/

/-- The token that a word stands for. -/
inductive Means (value : List Char → List Char → Rat) : String → Token → Prop
| number {w : String} {ds fs : List Char} :
  Numeral w ds fs →
  Means value w (.number (value ds fs))
| name {w : String} :
  IsName w →
  Means value w (.name w)
| symbol {w : String} {t : Token} :
  (w, t) ∈ symbols →
  Means value w t

theorem isWord_iff_means {value : List Char → List Char → Rat} {w : String} :
    IsWord w ↔ ∃ t, Means value w t := by
  constructor
  · rintro (⟨ds, fs, hq⟩ | hw | hw)
    · exact ⟨_, .number hq⟩
    · exact ⟨_, .name hw⟩
    · obtain ⟨p, hp, rfl⟩ : ∃ p ∈ symbols, p.1 = w := List.mem_map.1 hw
      exact ⟨p.2, .symbol hp⟩
  · rintro ⟨t, hq | hw | hp⟩
    · exact .inl ⟨_, _, hq⟩
    · exact .inr (.inl hw)
    · exact .inr (.inr (List.mem_map_of_mem (f := Prod.fst) hp))

/-- A word starts with a character that tells its kind. -/
inductive Opens (w : String) (c : Char) (cs : List Char) : Prop where
  | number {ds fs : List Char} : Numeral w ds fs → c.isDigit = true ∨ c = '.' → Opens w c cs
  | name : c.isAlpha = true → (∀ d ∈ cs, d.isAlphanum = true) → Opens w c cs
  | symbol {t : Token} : (w, t) ∈ symbols → operator? c ≠ none → Opens w c cs

/-- A number starts with a digit or with its point. -/
theorem Numeral.starts {w : String} {ds fs : List Char} (h : Numeral w ds fs) :
    ∃ c cs, w.toList = c :: cs ∧ (c.isDigit = true ∨ c = '.') := by
  cases h with
  | whole hne hds =>
    obtain ⟨c, cs, rfl⟩ := List.exists_cons_of_ne_nil hne
    exact ⟨c, cs, String.toList_ofList, .inl (hds c List.mem_cons_self)⟩
  | pointed hne hds hfs =>
    cases ds with
    | nil => exact ⟨'.', fs, String.toList_ofList, .inr rfl⟩
    | cons c cs => exact ⟨c, cs ++ '.' :: fs, String.toList_ofList, .inl (hds c List.mem_cons_self)⟩

theorem IsWord.opens {w : String} (h : IsWord w) : ∃ c cs, w.toList = c :: cs ∧ Opens w c cs := by
  obtain ⟨t, ht⟩ : ∃ t, Means decimalValue w t := isWord_iff_means.1 h
  obtain hq | ⟨c, cs, hw, hc, hcs⟩ | hw := ht
  · obtain ⟨c, cs, hcs, hc⟩ := hq.starts
    exact ⟨c, cs, hcs, .number hq hc⟩
  · exact ⟨c, cs, hw, .name hc (List.all_eq_true.1 hcs)⟩
  · have hall : symbols.all (fun p =>
        p.1.toList.head?.any fun c => (operator? c).isSome) = true := by
      decide
    obtain ⟨c, hhead, hc⟩ := (Option.any_eq_true _ _).1 (List.all_eq_true.1 hall _ hw)
    obtain ⟨cs, hcs⟩ := List.head?_eq_some_iff.1 hhead
    exact ⟨c, cs, hcs, .symbol hw (Option.isSome_iff_ne_none.1 hc)⟩

/-! ## Numbers -/

theorem length_le_takeWhile {p : Char → Bool} {ds cs : List Char} (hds : ∀ c ∈ ds, p c = true)
    (h : ds <+: cs) : ds.length ≤ (cs.takeWhile p).length := by
  obtain ⟨more, rfl⟩ := h
  rw [List.takeWhile_append_of_pos hds, List.length_append]
  exact Nat.le_add_right _ _

/-- Where a number with a point stands, the digits end at the point. -/
theorem digits_of_pointed {ds fs cs : List Char} (hds : ∀ c ∈ ds, c.isDigit = true)
    (h : ds ++ '.' :: fs <+: cs) :
    cs.takeWhile Char.isDigit = ds ∧
      ∃ more, cs.dropWhile Char.isDigit = '.' :: (fs ++ more) := by
  obtain ⟨more, rfl⟩ := h
  rw [List.append_assoc, List.takeWhile_append_of_pos hds, List.dropWhile_append_of_pos hds]
  exact ⟨by simp, more, rfl⟩

theorem fraction_of_ne {cs : List Char} (h : ∀ es, cs ≠ '.' :: es) : fraction cs = ([], cs) := by
  unfold fraction
  split
  next es => exact absurd rfl (h es)
  next => rfl

/-- A number with a point behind its first digits. -/
theorem numberToken?_pointed {cs es : List Char} (h : cs.dropWhile Char.isDigit = '.' :: es) :
    numberToken? cs =
      if cs.takeWhile Char.isDigit = [] ∧ es.takeWhile Char.isDigit = [] then none
      else some (.number (decimalValue (cs.takeWhile Char.isDigit) (es.takeWhile Char.isDigit)),
        es.dropWhile Char.isDigit) := by
  simp only [numberToken?_eq, h, fraction, Bool.and_eq_true, List.isEmpty_iff]

/-- A number without a point. -/
theorem numberToken?_whole {cs : List Char} (h : ∀ es, cs.dropWhile Char.isDigit ≠ '.' :: es) :
    numberToken? cs =
      if cs.takeWhile Char.isDigit = [] then none
      else some (.number (decimalValue (cs.takeWhile Char.isDigit) []),
        cs.dropWhile Char.isDigit) := by
  simp only [numberToken?_eq, fraction_of_ne h, List.isEmpty_nil, Bool.and_true, List.isEmpty_iff]

/-- The number at the front of a text is the longest one there. -/
theorem numberToken?_spec {cs rest : List Char} {t : Token} (h : numberToken? cs = some (t, rest)) :
    ∃ w, cs = w.toList ++ rest ∧ Means decimalValue w t ∧
      ∀ v ds fs, Numeral v ds fs → v.toList <+: cs → v.length ≤ w.length := by
  have hdigits : ∀ ds : List Char, ∀ c ∈ ds.takeWhile Char.isDigit, c.isDigit = true :=
    fun ds c hc => List.mem_takeWhile_imp hc
  have hsplit := List.takeWhile_append_dropWhile (p := Char.isDigit) (l := cs)
  by_cases hpoint : ∃ es, cs.dropWhile Char.isDigit = '.' :: es
  · obtain ⟨es, hes⟩ := hpoint
    rw [numberToken?_pointed hes] at h
    split at h
    next => cases h
    next hne =>
      cases h
      refine ⟨_, ?_, .number (.pointed ?_ (hdigits cs) (hdigits es)), ?_⟩
      · rw [String.toList_ofList, List.append_assoc, List.cons_append,
          List.takeWhile_append_dropWhile, ← hes, hsplit]
      · tauto
      · intro v ds fs hv hstarts
        rw [← String.length_toList, ← String.length_toList, String.toList_ofList,
          List.length_append, List.length_cons]
        cases hv with
        | whole hne hds =>
          rw [String.toList_ofList] at hstarts ⊢
          have := length_le_takeWhile hds hstarts
          omega
        | pointed hne hds hfs =>
          rw [String.toList_ofList] at hstarts ⊢
          obtain ⟨hwhole, more, hmore⟩ := digits_of_pointed hds hstarts
          obtain rfl : es = fs ++ more := (List.cons.inj (hes.symm.trans hmore)).2
          have := length_le_takeWhile hfs (List.prefix_append fs more)
          rw [hwhole, List.length_append, List.length_cons]
          omega
  · rw [not_exists] at hpoint
    rw [numberToken?_whole hpoint] at h
    split at h
    next => cases h
    next hne =>
      cases h
      refine ⟨_, ?_, .number (.whole hne (hdigits cs)), ?_⟩
      · rw [String.toList_ofList, hsplit]
      · intro v ds fs hv hstarts
        rw [← String.length_toList, ← String.length_toList, String.toList_ofList]
        cases hv with
        | whole hne hds =>
          rw [String.toList_ofList] at hstarts ⊢
          exact length_le_takeWhile hds hstarts
        | pointed hne hds hfs =>
          rw [String.toList_ofList] at hstarts
          obtain ⟨-, more, hmore⟩ := digits_of_pointed hds hstarts
          exact absurd hmore (hpoint _)

/-- A number by itself is found as a whole. -/
theorem Numeral.numberToken? {w : String} {ds fs : List Char} (h : Numeral w ds fs) :
    numberToken? w.toList = some (.number (decimalValue ds fs), []) := by
  cases h with
  | whole hne hds =>
    rw [String.toList_ofList, numberToken?_whole (by simp [List.dropWhile_eq_nil_iff.2 hds]),
      List.takeWhile_eq_self_iff.2 hds, List.dropWhile_eq_nil_iff.2 hds, if_neg hne]
  | pointed hne hds hfs =>
    obtain ⟨hwhole, -⟩ := digits_of_pointed hds (List.prefix_refl (ds ++ '.' :: fs))
    have hbehind : (ds ++ '.' :: fs).dropWhile Char.isDigit = '.' :: fs := by
      rw [List.dropWhile_append_of_pos hds]
      rfl
    rw [String.toList_ofList, numberToken?_pointed hbehind, hwhole,
      List.takeWhile_eq_self_iff.2 hfs, List.dropWhile_eq_nil_iff.2 hfs, if_neg (by tauto)]

/-- Where a number stands, one is found. -/
theorem isSome_numberToken? {cs ds fs : List Char} {v : String} (hv : Numeral v ds fs)
    (hstarts : v.toList <+: cs) : (numberToken? cs).isSome := by
  cases hv with
  | whole hne hds =>
    rw [String.toList_ofList] at hstarts
    have hwhole : cs.takeWhile Char.isDigit ≠ [] := by
      have hle := length_le_takeWhile hds hstarts
      have hpos := List.length_pos_iff.2 hne
      exact List.length_pos_iff.1 (by omega)
    by_cases hpoint : ∃ es, cs.dropWhile Char.isDigit = '.' :: es
    · obtain ⟨es, hes⟩ := hpoint
      rw [numberToken?_pointed hes, if_neg fun h => hwhole h.1]
      rfl
    · rw [numberToken?_whole (not_exists.1 hpoint), if_neg hwhole]
      rfl
  | pointed hne hds hfs =>
    rw [String.toList_ofList] at hstarts
    obtain ⟨rfl, more, hmore⟩ := digits_of_pointed hds hstarts
    rw [numberToken?_pointed hmore, if_neg]
    · rfl
    · rintro ⟨hwhole, hbehind⟩
      have hle := length_le_takeWhile hfs (List.prefix_append fs more)
      rw [hbehind, List.length_nil, Nat.le_zero, List.length_eq_zero_iff] at hle
      exact hne.elim (absurd hwhole) (absurd hle)

/-! ## The longest word -/

/-- A word at the front of a text has its first character. -/
theorem IsWord.opens_of_prefix {w : String} {c : Char} {cs : List Char} (h : IsWord w)
    (hstarts : w.toList <+: c :: cs) :
    ∃ ds, w.toList = c :: ds ∧ ds <+: cs ∧ Opens w c ds := by
  obtain ⟨d, ds, hw, hopens⟩ := h.opens
  rw [hw, List.cons_prefix_cons] at hstarts
  obtain ⟨rfl, hstarts⟩ := hstarts
  exact ⟨ds, hw, hstarts, hopens⟩

theorem operator?_mem_symbols {c : Char} {t : Token} (h : operator? c = some t) :
    (String.ofList [c], t) ∈ symbols := by
  simpa using operator?_all h (p := fun q => decide ((String.ofList [q.1], q.2) ∈ symbols)) rfl

theorem length_of_mem_symbols {w : String} {t : Token} (h : (w, t) ∈ symbols) :
    w = "**" ∨ w.length = 1 := by
  have hall : ∀ p ∈ symbols, p.1 = "**" ∨ p.1.length = 1 := by decide
  exact hall _ h

/-- Only a symbol starts with an operator. -/
theorem Opens.symbol_of_operator? {w : String} {c : Char} {cs : List Char} {t : Token}
    (h : Opens w c cs) (hc : operator? c = some t) : ∃ u, (w, u) ∈ symbols := by
  obtain ⟨halphanum, hpoint, -⟩ := operator?_spec hc
  cases h with
  | number _ hnumeric =>
    rcases hnumeric with hdigit | rfl
    · rw [isAlphanum_iff.2 (.inr hdigit)] at halphanum
      cases halphanum
    · exact absurd rfl hpoint
  | name halpha _ =>
    rw [isAlphanum_iff.2 (.inl halpha)] at halphanum
    cases halphanum
  | symbol hw _ => exact ⟨_, hw⟩

/-- The token at the front of a text is the meaning of the longest word there. -/
theorem lexeme?_spec {c : Char} {cs rest : List Char} {t : Token}
    (h : lexeme? (c :: cs) = some (t, rest)) :
    ∃ w, c :: cs = w.toList ++ rest ∧ Means decimalValue w t ∧
      ∀ v, IsWord v → v.toList <+: c :: cs → v.length ≤ w.length := by
  cases lexes_of_lexeme? h with
  | stars hc hcs =>
    subst hc hcs
    refine ⟨"**", rfl, .symbol (by decide), fun v hv hstarts => ?_⟩
    obtain ⟨ds, -, -, hopens⟩ := hv.opens_of_prefix hstarts
    obtain ⟨u, hu⟩ := hopens.symbol_of_operator? (t := .times) rfl
    rcases length_of_mem_symbols hu with rfl | hlength
    · exact le_rfl
    · rw [hlength]
      decide
  | operator hop hnext =>
    refine ⟨String.ofList [c], by simp, .symbol (operator?_mem_symbols hop), fun v hv hstarts => ?_⟩
    obtain ⟨ds, hv', hds, hopens⟩ := hv.opens_of_prefix hstarts
    obtain ⟨u, hu⟩ := hopens.symbol_of_operator? hop
    rcases length_of_mem_symbols hu with rfl | hlength
    · obtain ⟨rfl, rfl⟩ := List.cons.inj hv'
      obtain ⟨more, rfl⟩ := hds
      exact absurd rfl (hnext rfl)
    · rw [hlength, ← String.length_toList, String.toList_ofList]
      exact le_rfl
  | name halpha =>
    refine ⟨String.ofList (c :: cs.takeWhile Char.isAlphanum), ?_,
      .name ⟨c, cs.takeWhile Char.isAlphanum, String.toList_ofList, halpha, ?_⟩,
      fun v hv hstarts => ?_⟩
    · rw [String.toList_ofList, List.cons_append, List.takeWhile_append_dropWhile]
    · exact List.all_eq_true.2 fun d hd => List.mem_takeWhile_imp hd
    · obtain ⟨ds, hv', hds, hopens⟩ := hv.opens_of_prefix hstarts
      cases hopens with
      | number _ hnumeric =>
        rcases hnumeric with hdigit | rfl
        · rw [isAlpha_eq_false_of_isDigit hdigit] at halpha
          cases halpha
        · cases halpha
      | name _ halphanum =>
        rw [← String.length_toList, ← String.length_toList, hv', String.toList_ofList]
        exact Nat.succ_le_succ (length_le_takeWhile halphanum hds)
      | symbol _ hop => exact absurd (operator?_eq_none (.inl (isAlphanum_iff.2 (.inl halpha)))) hop
  | number hop halpha hnumber =>
    obtain ⟨w, hw, hmeans, hlongest⟩ := numberToken?_spec hnumber
    refine ⟨w, hw, hmeans, fun v hv hstarts => ?_⟩
    obtain ⟨ds, -, -, hopens⟩ := hv.opens_of_prefix hstarts
    cases hopens with
    | number hq _ => exact hlongest v _ _ hq hstarts
    | name halpha' _ =>
      rw [halpha] at halpha'
      cases halpha'
    | symbol _ hop' => exact absurd hop hop'

/-- Where a word stands, a token is found. -/
theorem isSome_lexeme? {w : String} {c : Char} {cs : List Char} (h : IsWord w)
    (hstarts : w.toList <+: c :: cs) : (lexeme? (c :: cs)).isSome := by
  obtain ⟨ds, -, -, hopens⟩ := h.opens_of_prefix hstarts
  cases hopens with
  | number hq hnumeric =>
    rw [lexeme?_of_numeric hnumeric]
    exact isSome_numberToken? hq hstarts
  | name halpha _ =>
    rw [lexeme?_of_isAlpha halpha]
    rfl
  | symbol _ hop =>
    obtain ⟨t, ht⟩ := Option.ne_none_iff_exists'.1 hop
    rw [lexeme?_cons, ht]
    split <;> rfl

/-! ## Cutting -/

theorem isSeparator_iff {c : Char} : isSeparator c = true ↔ c ∈ [' ', '\t', '\n', '\r'] := by
  simp [isSeparator, or_assoc]

/-- No word starts with a separator. -/
theorem Opens.not_separator {w : String} {c : Char} {cs : List Char} (h : Opens w c cs) :
    isSeparator c = false := by
  cases h with
  | number _ hnumeric =>
    exact StartsOperand.not_separator (hnumeric.imp_left fun hd => isAlphanum_iff.2 (.inr hd))
  | name halpha _ => exact StartsOperand.not_separator (.inl (isAlphanum_iff.2 (.inl halpha)))
  | symbol _ hop =>
    obtain ⟨t, ht⟩ := Option.ne_none_iff_exists'.1 hop
    exact (operator?_spec ht).2.2

/-- Where the longest word stands, its token is found. -/
theorem lexeme?_of_longest {w : String} {rest : List Char} (hw : IsWord w)
    (hlongest : ∀ v, IsWord v → v.toList <+: w.toList ++ rest → v.length ≤ w.length) :
    ∃ t, lexeme? (w.toList ++ rest) = some (t, rest) ∧ Means decimalValue w t := by
  obtain ⟨c, cs, hcs, -⟩ := hw.opens
  rw [hcs] at hlongest ⊢
  rw [List.cons_append] at hlongest ⊢
  have hstarts : w.toList <+: c :: (cs ++ rest) := by
    rw [hcs]
    exact List.prefix_append (c :: cs) rest
  obtain ⟨⟨t, rest'⟩, hlex⟩ := Option.isSome_iff_exists.1 (isSome_lexeme? hw hstarts)
  obtain ⟨v, hsplit, hmeans, hlongest'⟩ := lexeme?_spec hlex
  have hv : v.toList <+: c :: (cs ++ rest) := hsplit ▸ List.prefix_append v.toList rest'
  have hlength : w.length = v.length :=
    le_antisymm (hlongest' w hw hstarts) (hlongest v (isWord_iff_means.2 ⟨t, hmeans⟩) hv)
  have hsame : w.toList = v.toList := by
    refine List.IsPrefix.eq_of_length (List.prefix_of_prefix_length_le hstarts hv ?_) ?_
    · rw [String.length_toList, String.length_toList, hlength]
    · rw [String.length_toList, String.length_toList, hlength]
  obtain rfl := String.toList_inj.1 hsame
  rw [hcs, List.cons_append, List.cons.injEq, List.append_cancel_left_eq] at hsplit
  obtain ⟨-, rfl⟩ := hsplit
  exact ⟨t, hlex, hmeans⟩

/-- A text that falls into words has their meanings as its tokens. -/
theorem CutInto.tokens {cs : List Char} {ws : List String} (h : CutInto cs ws) :
    ∃ ts, tokens cs = some ts ∧ List.Forall₂ (Means decimalValue) ws ts := by
  induction h with
  | nil => exact ⟨[], tokens_nil, .nil⟩
  | separator hc _ ih =>
    rw [tokens_separator (isSeparator_iff.2 hc)]
    exact ih
  | @word w rest ws hw hlongest _ ih =>
    obtain ⟨t, hlex, hmeans⟩ := lexeme?_of_longest hw hlongest
    obtain ⟨ts, hts, hall⟩ := ih
    obtain ⟨c, cs, hcs, hopens⟩ := hw.opens
    refine ⟨t :: ts, ?_, .cons hmeans hall⟩
    rw [hcs, List.cons_append] at hlex ⊢
    rw [tokens_cons hopens.not_separator, hlex, Option.bind_some, hts]
    rfl

/-- A word by itself has its meaning as its token. -/
theorem Means.lexeme? {w : String} {t : Token} (h : Means decimalValue w t) :
    lexeme? w.toList = some (t, []) := by
  cases h with
  | number hq =>
    obtain ⟨c, cs, hcs, hc⟩ := hq.starts
    rw [hcs, lexeme?_of_numeric hc, ← hcs, hq.numberToken?]
  | name hw =>
    obtain ⟨c, cs, hcs, hc, hall⟩ := hw
    have hall := List.all_eq_true.1 hall
    rw [hcs, lexeme?_of_isAlpha hc, List.takeWhile_eq_self_iff.2 hall,
      List.dropWhile_eq_nil_iff.2 hall, ← hcs, String.ofList_toList]
  | symbol hw =>
    have hall : ∀ p ∈ symbols, Formula.lexeme? p.1.toList = some (p.2, []) := by decide
    exact hall _ hw

/-- A word has one meaning. -/
theorem Means.unique : Relator.RightUnique (Means decimalValue) := by
  intro w t u ht hu
  exact congrArg Prod.fst (Option.some.inj (ht.lexeme?.symm.trans hu.lexeme?))

section

variable {value : List Char → List Char → Rat} {l : Level} {ws : List String} {ts : List Token}
  {e : Expr}

end

/-! ## Reading -/

theorem Means.congr {value value' : List Char → List Char → Rat} {w : String} {t : Token}
    (h : Means value w t) (hv : ∀ ds fs, Numeral w ds fs → value ds fs = value' ds fs) :
    Means value' w t := by
  cases h with
  | number hq =>
    rw [hv _ _ hq]
    exact .number hq
  | name hw => exact .name hw
  | symbol hw => exact .symbol hw

/-- No word of a text is longer than the text. -/
theorem CutInto.length_le {cs : List Char} {ws : List String} (h : CutInto cs ws) :
    ∀ w ∈ ws, w.length ≤ cs.length := by
  induction h with
  | nil => simp
  | separator _ _ ih => exact fun w hw => (ih w hw).trans (Nat.le_succ _)
  | word _ _ _ ih =>
    intro v hv
    rw [List.length_append, String.length_toList]
    rcases List.mem_cons.1 hv with rfl | hv
    · exact Nat.le_add_right _ _
    · exact (ih v hv).trans (Nat.le_add_left _ _)

theorem digitsValue_one_behind_zeros (k : ℕ) :
    digitsValue (List.replicate k '0' ++ ['1']) = 1 := by
  induction k with
  | zero => rfl
  | succ k ih => exact ih

/-- A point, zeros and a one are read as a power of ten with the exponent that is counted. -/
theorem read_one_behind_zeros (k : ℕ) :
    read (String.ofList ('.' :: (List.replicate k '0' ++ ['1']))) =
      .ok (.const (1 / 10 ^ countedPlaces (k + 1))) := by
  have hdigits : ∀ c ∈ List.replicate k '0' ++ ['1'], c.isDigit = true := by
    intro c hc
    rcases List.mem_append.1 hc with hc | hc
    · rw [List.eq_of_mem_replicate hc]
      rfl
    · rw [List.mem_singleton.1 hc]
      rfl
  have hnumeral : Numeral _ [] (List.replicate k '0' ++ ['1']) :=
    .pointed (.inr (by simp)) nofun hdigits
  have hvalue : decimalValue [] (List.replicate k '0' ++ ['1']) =
      1 / 10 ^ countedPlaces (k + 1) := by
    rw [decimalValue, List.nil_append, digitsValue_one_behind_zeros, Rat.mkRat_eq_div]
    simp
  have htokens : tokens ('.' :: (List.replicate k '0' ++ ['1'])) =
      some [.number (1 / 10 ^ countedPlaces (k + 1))] := by
    have hlex := hnumeral.numberToken?
    rw [String.toList_ofList, List.nil_append, hvalue] at hlex
    rw [tokens_cons rfl, lexeme?_of_numeric (.inr rfl), hlex, Option.bind_some, tokens_nil]
    rfl
  rw [read, parse?_eq_some_iff.2 ⟨_, by rw [String.toList_ofList, htokens],
    .ofProduct (.ofSigned (Derives.number _).primary_signed)⟩]

/-- The reading has no decimals where there are `2 ^ 32` of them. -/
example : read (String.ofList ('.' :: (List.replicate (2 ^ 32 - 1) '0' ++ ['1']))) =
    .ok (.const 1) := by
  rw [read_one_behind_zeros]
  simp [countedPlaces]

end MarketAlgebra.Formula
