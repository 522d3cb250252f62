import MarketAlgebra.Formula.Words
import MarketAlgebra.Proofs.Formula.Shorthand
import MarketAlgebra.Proofs.Formula.Writing

/-!
# Affine formulas in shorthand

A number and a multiple of a name, written `a - bx` with natural numbers in decimal digits, is spelt
out to `a - b*x` and read as exactly that expression (`readIn_normalize_minus`), and the name is a
word of the text.  The same holds with a sum in place of the difference.
-/

namespace MarketAlgebra.Formula

/-! ## Spelling out -/

/-- A product sign is put where two characters adjoin and nothing before them does. -/
theorem spellProducts_adjoins {cs : List Char} {c d : Char} {ds : List Char}
    (h : (cs ++ [c]).IsChain fun c d => adjoins c d = false) (hcd : adjoins c d = true) :
    spellProducts (cs ++ c :: d :: ds) = cs ++ c :: '*' :: spellProducts (d :: ds) := by
  induction cs with
  | nil => rw [List.nil_append, spellProducts, if_pos hcd, List.nil_append]
  | cons e cs ih =>
    obtain ⟨f, fs, hfs⟩ : ∃ f fs, cs ++ [c] = f :: fs :=
      List.exists_cons_of_ne_nil (List.append_ne_nil_of_right_ne_nil _ (List.cons_ne_nil _ _))
    have hstep := ih (List.IsChain.tail h)
    rw [List.cons_append, hfs] at h
    have hhead : adjoins e f = false := (List.isChain_cons_cons.1 h).1
    have hcs : cs ++ c :: d :: ds = f :: (fs ++ d :: ds) := by
      rw [← List.cons_append, ← hfs, List.append_assoc, List.singleton_append]
    rw [List.cons_append, hcs, spellProducts, hhead, ← hcs, hstep]
    rfl

theorem denominator?_eq_none {cs : List Char} (h : '/' ∉ cs) : denominator? cs = none := by
  rw [denominator?]
  split
  next ds hds =>
    refine absurd ((List.dropWhile_sublist Text.isBlank).subset ?_) h
    rw [hds]
    exact List.mem_cons_self
  next => rfl

/-- A text without a slash has no quotients. -/
theorem wrapQuotients_eq_self {cs : List Char} (h : '/' ∉ cs) : wrapQuotients cs = cs := by
  induction hn : cs.length using Nat.strongRecOn generalizing cs with
  | ind n ih =>
    cases cs with
    | nil => exact wrapQuotients_nil
    | cons c cs =>
      have hcs : '/' ∉ cs := fun hmem => h (List.mem_cons_of_mem _ hmem)
      cases hc : isOperandChar c with
      | false =>
        rw [wrapQuotients_cons hc, ih cs.length (by simp [← hn]) hcs rfl]
      | true =>
        have hrest : '/' ∉ (operand cs).2 := fun hmem =>
          hcs ((List.dropWhile_sublist isOperandChar).subset hmem)
        have hlen : (operand cs).2.length < n := by
          rw [← hn]
          exact Nat.lt_succ_of_le (length_dropWhile_le isOperandChar cs)
        rw [wrapQuotients_run hc (denominator?_eq_none hrest), ih _ hlen hrest rfl, operand,
          List.cons_append, List.takeWhile_append_dropWhile]

/-! ## Words -/

theorem words_ne_nil (cs : List Char) : words cs ≠ [] := by
  cases cs with
  | nil => simp [words]
  | cons c cs =>
    rw [words]
    split
    · split <;> simp
    · simp

/-- A character that belongs to no word divides the words of a text. -/
theorem words_append_cons {c : Char} (hc : isWordChar c = false) (cs ds : List Char) :
    words (cs ++ c :: ds) = words cs ++ words ds := by
  induction cs with
  | nil => simp [words, hc]
  | cons e cs ih =>
    obtain ⟨w, ws, hws⟩ := List.exists_cons_of_ne_nil (words_ne_nil cs)
    cases he : isWordChar e <;> simp [words, he, ih, hws]

/-! ## Affine formulas -/

theorem isDigit_of_mem_nat {n : ℕ} {c : Char} (hc : c ∈ (toString n).toList) :
    c.isDigit = true := by
  rw [Nat.toString_eq_repr, Nat.toList_repr] at hc
  exact Nat.isDigit_of_mem_toDigits (by decide) (by decide) hc

/-- Characters of one kind do not adjoin. -/
theorem isChain_of_isAlpha {b : Bool} {cs : List Char} (h : ∀ c ∈ cs, c.isAlpha = b) :
    cs.IsChain fun c d => adjoins c d = false := by
  refine List.Pairwise.isChain (List.pairwise_of_forall_mem_list fun c hc d hd => ?_)
  cases b with
  | false => simp [adjoins, h c hc, h d hd]
  | true =>
    have hdigit : ∀ e ∈ cs, e.isDigit = false := fun e he => by
      rw [← Bool.not_eq_true]
      intro hdigit
      have halpha := h e he
      rw [isAlpha_eq_false_of_isDigit hdigit] at halpha
      cases halpha
    simp [adjoins, hdigit c hc, hdigit d hd]

section

variable {text x : String} {b : ℕ} (htext : ∀ c ∈ text.toList, c.isAlpha = false ∧ c ≠ '/')
  (hx : x ≠ "") (hletters : ∀ c ∈ x.toList, c.isAlpha = true)

include htext hx hletters

/-- The product behind a text without letters and slashes is spelt out. -/
theorem normalize_product :
    normalize (text ++ toString b ++ x) = text ++ toString b ++ "*" ++ x := by
  have hdigits : ∀ c ∈ (toString b).toList, c.isDigit = true := fun c hc => isDigit_of_mem_nat hc
  have hspelt : spellProducts (text.toList ++ (toString b).toList ++ x.toList) =
      text.toList ++ (toString b).toList ++ '*' :: x.toList := by
    obtain ⟨d, ds, hds⟩ := List.exists_cons_of_ne_nil (mt String.toList_eq_nil_iff.1 hx)
    obtain ⟨bs, c, hbs⟩ : ∃ bs c, (toString b).toList = bs ++ [c] :=
      ⟨_, _, (List.dropLast_append_getLast (spells_nat b).nonempty).symm⟩
    have hbefore : ∀ e ∈ text.toList ++ (toString b).toList, e.isAlpha = false :=
      List.forall_mem_append.2 ⟨fun e he => (htext e he).1,
        fun e he => isAlpha_eq_false_of_isDigit (hdigits e he)⟩
    have hlast : c.isDigit = true := hdigits c (hbs ▸ List.mem_append_right _ List.mem_cons_self)
    have hfirst : d.isAlpha = true := hletters d (hds ▸ List.mem_cons_self)
    have hadjoins : adjoins c d = true := by simp [adjoins, hlast, hfirst]
    have hchain : (text.toList ++ bs ++ [c]).IsChain fun c d => adjoins c d = false := by
      rw [List.append_assoc, ← hbs]
      exact isChain_of_isAlpha hbefore
    have hproduct : spellProducts (text.toList ++ bs ++ c :: d :: ds) =
        text.toList ++ bs ++ c :: '*' :: spellProducts (d :: ds) :=
      spellProducts_adjoins hchain hadjoins
    rw [← hds, spellProducts_eq_self (isChain_of_isAlpha hletters)] at hproduct
    simpa only [hbs, List.append_assoc, List.cons_append, List.nil_append] using hproduct
  have hslash : '/' ∉ text.toList ++ (toString b).toList ++ '*' :: x.toList := by
    simp only [List.mem_append, List.mem_cons, not_or]
    refine ⟨⟨fun h => (htext _ h).2 rfl, fun h => ?_⟩, by decide, fun h => ?_⟩
    · cases hdigits _ h
    · cases hletters _ h
  rw [normalize, String.toList_append, String.toList_append, hspelt, wrapQuotients_eq_self hslash]
  refine String.toList_inj.1 ?_
  simp only [String.toList_ofList, String.toList_append, List.append_assoc]
  rfl

end

/-! ## Reading -/

theorem derives_product (x : String) (b : Rat) :
    Derives .product [.number b, .times, .name x] (.mul (.const b) (.var x)) :=
  .number_times b (Derives.name x).primary_signed

theorem derives_number (a : Rat) : Derives .sum [.number a] (.const a) :=
  .ofProduct (.ofSigned (Derives.number a).primary_signed)

section

variable {x : String} (hx : IsName x) (a b : ℕ)

include hx

theorem spells_product : Spells (toString b ++ "*" ++ x).toList [.number b, .times, .name x] := by
  simpa using (spells_nat b).join operates_star hx.spells

theorem readIn_minus : readIn (toString a ++ " - " ++ toString b ++ "*" ++ x) x =
    .ok (.sub (.const a) (.mul (.const b) (.var x))) := by
  have hjoin := (spells_nat a).join operates_minus.spaced (spells_product hx b)
  refine readIn_eq_ok_iff.2 ⟨parse?_eq_some_iff.2 ⟨_, ?_,
    .minus (derives_number a) (derives_product x b)⟩, by simp [Expr.occurrences]⟩
  simpa using hjoin.tokens_eq

theorem readIn_plus : readIn (toString a ++ " + " ++ toString b ++ "*" ++ x) x =
    .ok (.add (.const a) (.mul (.const b) (.var x))) := by
  have hjoin := (spells_nat a).join operates_plus.spaced (spells_product hx b)
  refine readIn_eq_ok_iff.2 ⟨parse?_eq_some_iff.2 ⟨_, ?_,
    .plus (derives_number a) (derives_product x b)⟩, by simp [Expr.occurrences]⟩
  simpa using hjoin.tokens_eq

end

/-! ## Shorthand -/

section

variable {x : String} (hx : x ≠ "") (hletters : ∀ c ∈ x.toList, c.isAlpha = true) (a b : ℕ)

include hx hletters

theorem isName_of_isAlpha : IsName x := by
  obtain ⟨c, cs, hcs⟩ := List.exists_cons_of_ne_nil (mt String.toList_eq_nil_iff.1 hx)
  rw [hcs] at hletters
  refine ⟨c, cs, hcs, hletters c List.mem_cons_self, List.all_eq_true.2 fun d hd => ?_⟩
  exact isAlphanum_iff.2 (.inl (hletters d (List.mem_cons_of_mem _ hd)))

/-- The product behind a number and a sign is spelt out. -/
theorem normalize_affine {sign : String}
    (hsign : ∀ c ∈ sign.toList, c.isAlpha = false ∧ c ≠ '/') :
    normalize (toString a ++ sign ++ toString b ++ x) =
      toString a ++ sign ++ toString b ++ "*" ++ x := by
  refine normalize_product ?_ hx hletters
  rw [String.toList_append]
  refine List.forall_mem_append.2 ⟨fun c hc => ?_, hsign⟩
  have hdigit := isDigit_of_mem_nat hc
  refine ⟨isAlpha_eq_false_of_isDigit hdigit, ?_⟩
  rintro rfl
  cases hdigit

/-- A difference in shorthand is read as it is meant. -/
theorem readIn_normalize_minus : readIn (normalize (toString a ++ " - " ++ toString b ++ x)) x =
    .ok (.sub (.const a) (.mul (.const b) (.var x))) := by
  rw [normalize_affine hx hletters a b (by simp)]
  exact readIn_minus (isName_of_isAlpha hx hletters) a b

/-- A sum in shorthand is read as it is meant. -/
theorem readIn_normalize_plus : readIn (normalize (toString a ++ " + " ++ toString b ++ x)) x =
    .ok (.add (.const a) (.mul (.const b) (.var x))) := by
  rw [normalize_affine hx hletters a b (by simp)]
  exact readIn_plus (isName_of_isAlpha hx hletters) a b

/-- The name is a word of the text, as it is one of its own text. -/
theorem hasWord_normalize_minus (hword : words x.toList = [x.toList]) :
    hasWord (normalize (toString a ++ " - " ++ toString b ++ x)) x = true := by
  have hstar : isWordChar '*' = false := rfl
  rw [normalize_affine hx hletters a b (by simp), hasWord, String.toList_append,
    String.toList_append, List.append_assoc]
  change (words (_ ++ '*' :: x.toList)).contains x.toList = true
  rw [words_append_cons hstar, hword]
  simp

end

end MarketAlgebra.Formula
