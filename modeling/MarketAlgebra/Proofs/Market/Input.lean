import MarketAlgebra.Proofs.Formula.Words
import MarketAlgebra.Proofs.Market.Computation

/-!
# Valid demands

A demand has to mention the quantity.  Its text is searched for the word before it is parsed, and
the search decides what the expression would: in a formula the word is found exactly when the
expression mentions it.
-/

namespace MarketAlgebra.Market

/-- A text over the quantity is a valid demand exactly when it is a formula that mentions the
quantity, and a formula that does not is rejected for that reason.  The quantity may be any
identifier, since none starts with a digit, but the names of functions. -/
theorem demand_is_valid_iff_mentioned {text x : String}
    (hx : ∃ c cs, x.toList = c :: cs ∧ c.isDigit = false) (hf : Formula.function? x = none) :
    (∀ input, (Input.read Engine.exact text x false).run = .ok input ↔
      ∃ e, Formula.readIn text x = .ok e ∧ e.mentions x = true ∧ input = ⟨text, e⟩) ∧
    ∀ e, Formula.readIn text x = .ok e → e.mentions x = false →
      (Input.read Engine.exact text x false).run = .error (.missingVariable x) := by
  have hword : ∀ e, Formula.readIn text x = .ok e → Formula.hasWord text x = e.mentions x :=
    fun e he => Formula.hasWord_eq_mentions hx hf (Formula.readIn_eq_ok_iff.1 he).1
  constructor
  · rintro ⟨text', e'⟩
    rw [run_read_eq_ok_iff]
    constructor
    · rintro ⟨hfound, he, rfl⟩
      have hfound := hfound.resolve_left Bool.false_ne_true
      exact ⟨e', he, by rwa [← hword e' he], rfl⟩
    · rintro ⟨e, he, hmentions, heq⟩
      obtain ⟨rfl, rfl⟩ := Input.mk.inj heq
      exact ⟨.inr (by rwa [hword e' he]), he, rfl⟩
  · intro e he hmentions
    have hfound : Formula.hasWord text x = false := by rw [hword e he, hmentions]
    rw [Input.read, hfound]
    rfl

/-- The quantity is a word behind a function and between operators, and no part of a number is. -/
theorem demand_is_valid_iff_mentioned_in_root :
    let e : Expr := .sub (.sqrt (.var "Q")) (.const (3 / 2))
    (∃ c cs, "Q".toList = c :: cs ∧ c.isDigit = false) ∧ Formula.function? "Q" = none ∧
      (Formula.readIn "sqrt(Q)-1.5" "Q" = .ok e ∧ e.mentions "Q" = true ∧
        (Input.read Engine.exact "sqrt(Q)-1.5" "Q" false).run = .ok ⟨"sqrt(Q)-1.5", e⟩) ∧
      Formula.readIn "1.5" "Q" = .ok (.const (3 / 2)) ∧
        (Input.read Engine.exact "1.5" "Q" false).run = .error (.missingVariable "Q") := by
  intro e
  have hx : ∃ c cs, "Q".toList = c :: cs ∧ c.isDigit = false := ⟨'Q', [], rfl, rfl⟩
  have hroot : Formula.Derives .primary
      (.name "sqrt" :: .lparen :: [.name "Q"] ++ [.rparen]) (.sqrt (.var "Q")) :=
    .call rfl (.ofProduct (.ofSigned (Formula.Derives.name "Q").primary_signed))
  have hnumber : Formula.Derives .product [.number (3 / 2)] (.const (3 / 2)) :=
    .ofSigned (Formula.Derives.number _).primary_signed
  have he : Formula.readIn "sqrt(Q)-1.5" "Q" =
      .ok (.sub (.sqrt (.var "Q")) (.const (3 / 2))) :=
    Formula.readIn_eq_ok_iff.2 ⟨Formula.parse?_eq_some_iff.2 ⟨_, by cbv,
      .minus (.ofProduct (.ofSigned hroot.primary_signed)) hnumber⟩, by decide⟩
  have hconst : Formula.readIn "1.5" "Q" = .ok (.const (3 / 2)) :=
    Formula.readIn_eq_ok_iff.2 ⟨Formula.parse?_eq_some_iff.2 ⟨_, by cbv, .ofProduct hnumber⟩,
      by decide⟩
  exact ⟨hx, rfl, ⟨he, rfl, ((demand_is_valid_iff_mentioned hx rfl).1 _).2 ⟨e, he, rfl, rfl⟩⟩,
    hconst, (demand_is_valid_iff_mentioned hx rfl).2 _ hconst rfl⟩

end MarketAlgebra.Market
