import MarketAlgebra.Proofs.Formula.Writing

/-!
# Reading what is printed

The printer never puts a negation into parentheses.  Under a power its sign is therefore read as the
sign of the whole power: the square of `-Q` is printed as `-Q^2`, which is minus the square of `Q`.
`Expr.asRead` is the expression with all such signs moved.  The text of an expression in a place
always writes that one (`Expr.Shown`), by induction along the printer.

The signs that the printer takes out of sums, products and quotients do not change the values, nor
does writing `c * (1 / d)` as `c / d`.  So an expression is read back with its own values when no
base of a power in it opens with a sign (`Expr.hasSignedBase`).
-/

namespace MarketAlgebra.Expr

open MarketAlgebra.Formula (Writes Level IsName function?)

/-! ## The sign of a base -/

/-- Whether the text of the expression as a part of a power opens with a minus sign. -/
def opensWithSign : Expr → Bool
  | .neg (.neg a) => a.opensWithSign
  | .neg a => !a.signed
  | _ => false

/-- The expression that the text of an expression writes: the sign that opens the base of a power
belongs to the power. -/
def asRead : Expr → Expr
  | .var x => .var x
  | .const c => .const c
  | .add a b => .add a.asRead b.asRead
  | .sub a b => .sub a.asRead b.asRead
  | .mul a b => .mul a.asRead b.asRead
  | .div a b => .div a.asRead b.asRead
  | .pow a b =>
    if b ≠ .const (1 / 2) ∧ a.opensWithSign = true then .neg (.pow (.neg a.asRead) b.asRead)
    else .pow a.asRead b.asRead
  | .neg a => .neg a.asRead
  | .call f a => .call f a.asRead

/-- Whether the base of a power somewhere in the expression opens with a minus sign. -/
def hasSignedBase : Expr → Bool
  | .var _ | .const _ => false
  | .add a b | .sub a b | .mul a b | .div a b => a.hasSignedBase || b.hasSignedBase
  | .pow a b =>
    a.hasSignedBase || b.hasSignedBase || (b ≠ .const (1 / 2) && a.opensWithSign)
  | .neg a | .call _ a => a.hasSignedBase

/-- Nothing moves where no base opens with a sign. -/
theorem asRead_eq_self {e : Expr} (h : e.hasSignedBase = false) : e.asRead = e := by
  induction e with
  | var x => rfl
  | const c => rfl
  | add a b iha ihb | sub a b iha ihb | mul a b iha ihb | div a b iha ihb =>
    obtain ⟨ha, hb⟩ := Bool.or_eq_false_iff.1 h
    rw [asRead, iha ha, ihb hb]
  | pow a b iha ihb =>
    simp only [hasSignedBase, Bool.or_eq_false_iff] at h
    obtain ⟨⟨ha, hb⟩, hsign⟩ := h
    rw [asRead, iha ha, ihb hb, if_neg (by simpa using hsign)]
  | neg a ih =>
    rw [asRead, ih h]
  | call f a ih =>
    rw [asRead, ih h]

/-! ## Signs that are taken out -/

section

variable {a b : Expr}

theorem same_neg_neg (a : Expr) : Same (.neg (.neg a)) a :=
  .of_real_eq (fun _ => Iff.rfl) fun _ => neg_neg _

theorem same_add_neg (a b : Expr) : Same (.add a (.neg b)) (.sub a b) :=
  .of_real_eq (fun _ => Iff.rfl) fun _ => (sub_eq_add_neg _ _).symm

theorem same_sub_neg (a b : Expr) : Same (.sub a (.neg b)) (.add a b) :=
  .of_real_eq (fun _ => Iff.rfl) fun _ => sub_neg_eq_add _ _

/-- An operation on which a sign of either part is a sign of the result. -/
structure TakesSigns (op : Expr → Expr → Expr) : Prop where
  /-- The operation keeps values. -/
  congr : ∀ {a b c d}, Same a c → Same b d → Same (op a b) (op c d)
  /-- The sign of the left part. -/
  left : ∀ a b, Same (op (.neg a) b) (.neg (op a b))
  /-- The sign of the right part. -/
  right : ∀ a b, Same (op a (.neg b)) (.neg (op a b))

theorem takesSigns_mul : TakesSigns .mul where
  congr := Same.mul
  left _ _ := .of_real_eq (fun _ => Iff.rfl) fun _ => neg_mul _ _
  right _ _ := .of_real_eq (fun _ => Iff.rfl) fun _ => mul_neg _ _

theorem takesSigns_div : TakesSigns .div where
  congr := Same.div
  left _ _ := .of_real_eq (fun _ => Iff.rfl) fun _ => neg_div _ _
  right _ _ :=
    .of_real_eq (fun _ => by simp only [Defined, real, neg_ne_zero]) fun _ => div_neg _

/-- Signs of both parts cancel. -/
theorem TakesSigns.both {op : Expr → Expr → Expr} (h : TakesSigns op) (a b : Expr) :
    Same (op (.neg a) (.neg b)) (op a b) :=
  ((h.left a (.neg b)).trans (h.right a b).neg).trans (same_neg_neg _)

theorem unsigned_eq_self (h : a.signed = false) : a.unsigned = a := by
  cases a with
  | const c => rw [unsigned, if_neg (by simpa [signed] using h)]
  | neg a => cases h
  | _ => rfl

/-- The sign that an expression shows is its sign. -/
theorem same_neg_unsigned (h : a.signed = true) : Same (.neg a.unsigned.asRead) a.asRead := by
  cases a with
  | const c =>
    rw [unsigned, if_pos (by simpa [signed] using h)]
    exact .of_real_eq (fun _ => Iff.rfl) fun _ => by simp [asRead, real]
  | neg a => exact Same.refl _
  | _ => cases h

theorem same_unsigned (h : a.signed = false) : Same a.unsigned.asRead a.asRead := by
  rw [unsigned_eq_self h]
  exact Same.refl _

/-- The signs of the parts make the sign of the whole. -/
theorem TakesSigns.same_signs {op : Expr → Expr → Expr} (h : TakesSigns op) (a b : Expr) :
    Same (if a.signed != b.signed then .neg (op a.unsigned.asRead b.unsigned.asRead)
      else op a.unsigned.asRead b.unsigned.asRead) (op a.asRead b.asRead) := by
  cases ha : a.signed with
  | true =>
    cases hb : b.signed with
    | true => exact (h.both _ _).symm.trans (h.congr (same_neg_unsigned ha) (same_neg_unsigned hb))
    | false => exact (h.left _ _).symm.trans (h.congr (same_neg_unsigned ha) (same_unsigned hb))
  | false =>
    cases hb : b.signed with
    | true => exact (h.right _ _).symm.trans (h.congr (same_unsigned ha) (same_neg_unsigned hb))
    | false => exact h.congr (same_unsigned ha) (same_unsigned hb)

/-- A product with a reciprocal is a quotient. -/
theorem same_mul_reciprocal {d : Expr} (h : b.reciprocal? = some d) :
    Same (.div a.asRead d.asRead) (.mul a.asRead b.asRead) := by
  cases b with
  | div n d' =>
    simp only [reciprocal?, Option.ite_none_right_eq_some, isOne_iff, Option.some.injEq] at h
    obtain ⟨rfl, rfl⟩ := h
    refine .of_real_eq (fun s => ?_) fun s => ?_
    · simp [asRead, Defined]
    · simp [asRead, real, div_eq_mul_inv]
  | _ => cases h

end

/-! ## The text of an expression in a place -/

/-- The text of the expression in a place writes what the expression is read as, by the rule of that
place.  When it opens with the sign of a negation, it is that sign in front of a primary part. -/
def Shown (place : Nat) (e : Expr) : Prop :=
  if e.opensWithSign then ∃ p, e.textIn place = "-" ++ p ∧ Writes .primary p (.neg e.asRead)
  else Writes (.ofPlace place) (e.textIn place) e.asRead

section

variable {place : Nat} {a b e : Expr}

theorem shown_of_writes (h : e.opensWithSign = false)
    (hw : Writes (.ofPlace place) (e.textIn place) e.asRead) : Shown place e := by
  rwa [Shown, if_neg (by simp [h])]

theorem Shown.of_primary (h : Shown 4 e) (hs : e.opensWithSign = false) :
    Writes .primary (e.textIn 4) e.asRead := by
  rwa [Shown, if_neg (by simp [hs])] at h

/-- The text in a place that lets a sign stand. -/
theorem Shown.writes (h : Shown place e) (hplace : place ≤ 3) :
    Writes (.ofPlace place) (e.textIn place) e.asRead := by
  rw [Shown] at h
  split at h
  next =>
    obtain ⟨p, hp, hw⟩ := h
    rw [hp]
    have hsigned : Writes (.ofPlace 3) ("-" ++ p) e.asRead :=
      hw.power.signed.negative.same (same_neg_neg _)
    exact hsigned.ofPlace_of_le hplace
  next => exact h

/-- An exponent may open with a sign. -/
theorem Shown.exponent (h : Shown 4 e) : Writes .signed (e.textIn 4) e.asRead := by
  rw [Shown] at h
  split at h
  next =>
    obtain ⟨p, hp, hw⟩ := h
    rw [hp]
    exact hw.power.signed.negative.same (same_neg_neg _)
  next => exact h.power.signed

theorem shown_add (ha : Shown 1 a) (hb : Shown 2 b.unsigned) : Shown place (.add a b) := by
  refine shown_of_writes rfl ?_
  rw [textIn, asRead]
  have ha := ha.writes (by decide)
  have hb := hb.writes (by decide)
  refine Writes.bracket place 1 ?_
  cases hs : b.signed with
  | true =>
    rw [if_pos rfl]
    exact (ha.minus hb).same
      ((same_add_neg _ _).symm.trans ((Same.refl _).add (same_neg_unsigned hs)))
  | false =>
    rw [if_neg (by simp)]
    exact (ha.plus hb).same ((Same.refl _).add (same_unsigned hs))

theorem shown_sub (ha : Shown 1 a) (hb : Shown 2 b.unsigned) : Shown place (.sub a b) := by
  refine shown_of_writes rfl ?_
  rw [textIn, asRead]
  have ha := ha.writes (by decide)
  have hb := hb.writes (by decide)
  refine Writes.bracket place 1 ?_
  cases hs : b.signed with
  | true =>
    rw [if_pos rfl]
    exact (ha.plus hb).same
      ((same_sub_neg _ _).symm.trans ((Same.refl _).sub (same_neg_unsigned hs)))
  | false =>
    rw [if_neg (by simp)]
    exact (ha.minus hb).same ((Same.refl _).sub (same_unsigned hs))

theorem shown_mul (ha : Shown 2 a.unsigned) (hb : Shown 2 b.unsigned)
    (hd : ∀ d, b.unsigned.reciprocal? = some d → Shown 3 d) : Shown place (.mul a b) := by
  refine shown_of_writes rfl ?_
  rw [textIn, asRead]
  have ha := ha.writes (by decide)
  refine (Writes.signedProduct (e := .mul a.unsigned.asRead b.unsigned.asRead) ?_ place _).same
    (takesSigns_mul.same_signs a b)
  split
  next d hr => exact (ha.spacedOver ((hd d hr).writes (by decide))).same (same_mul_reciprocal hr)
  next => exact ha.times (hb.writes (by decide))

theorem shown_div (ha : Shown 2 a.unsigned) (hb : Shown 3 b.unsigned) :
    Shown place (.div a b) := by
  refine shown_of_writes rfl ?_
  rw [textIn, asRead]
  have ha := ha.writes (by decide)
  have hb := hb.writes (by decide)
  exact ((ha.spacedOver hb).signedProduct place _).same (takesSigns_div.same_signs a b)

theorem isName_sqrt : IsName "sqrt" := ⟨'s', ['q', 'r', 't'], rfl, rfl, rfl⟩

theorem shown_sqrt (ha : Shown 0 a) : Shown place (.pow a (.const (1 / 2))) := by
  refine shown_of_writes rfl ?_
  rw [textIn, if_pos rfl, asRead, if_neg (by simp)]
  have ha := ha.writes (by decide)
  have hcall := Writes.apply (f := Expr.sqrt) isName_sqrt rfl (·.pow (Same.refl _)) ha
  exact hcall.ofPlace place

theorem shown_pow (hb2 : b ≠ .const (1 / 2)) (ha : Shown 4 a) (hb : Shown 4 b) :
    Shown place (.pow a b) := by
  refine shown_of_writes rfl ?_
  rw [textIn, if_neg hb2, asRead]
  have hb := hb.exponent
  refine Writes.bracket place 3 ?_
  cases hs : a.opensWithSign with
  | true =>
    rw [Shown, if_pos hs] at ha
    obtain ⟨p, hp, hw⟩ := ha
    rw [if_pos ⟨hb2, rfl⟩, hp]
    have hraise := (hw.raise hb).signed.negative
    rwa [← String.append_assoc, ← String.append_assoc] at hraise
  | false =>
    rw [if_neg (by simp)]
    exact ((ha.of_primary hs).raise hb).signed

/-- Only a negation opens with the sign of a negation. -/
theorem opensWithSign_of_not_signed (h : a.signed = false) : a.opensWithSign = false := by
  cases a with
  | neg a => cases h
  | _ => rfl

theorem opensWithSign_neg_of_signed (h : a.signed = true) :
    opensWithSign (.neg a) = a.unsigned.opensWithSign := by
  cases a with
  | const c =>
    rw [unsigned]
    split <;> simp [opensWithSign, h]
  | neg a => rfl
  | _ => cases h

theorem opensWithSign_neg_of_not_signed (h : a.signed = false) :
    opensWithSign (.neg a) = true := by
  cases a with
  | neg a => cases h
  | _ => simp [opensWithSign, h]

theorem shown_neg (ha : Shown 4 a.unsigned) : Shown place (.neg a) := by
  rw [Shown, textIn, asRead]
  cases hs : a.signed with
  | true =>
    have hsame : Same a.unsigned.asRead (.neg a.asRead) :=
      (same_neg_neg _).symm.trans (same_neg_unsigned hs).neg
    rw [opensWithSign_neg_of_signed hs, if_pos rfl, String.empty_append]
    rw [Shown] at ha
    split at ha
    next hsign =>
      obtain ⟨p, hp, hw⟩ := ha
      rw [if_pos hsign]
      exact ⟨p, hp, hw.same hsame.neg⟩
    next hsign =>
      rw [if_neg hsign]
      exact (Writes.ofPlace ha place).same hsame
  | false =>
    rw [opensWithSign_neg_of_not_signed hs, if_pos rfl, unsigned_eq_self hs]
    rw [unsigned_eq_self hs] at ha
    exact ⟨_, rfl, (ha.of_primary (opensWithSign_of_not_signed hs)).same (same_neg_neg _).symm⟩

theorem isName_name (f : Fn) : IsName f.name := by
  cases f with
  | sin => exact ⟨'s', ['i', 'n'], rfl, rfl, rfl⟩
  | cos => exact ⟨'c', ['o', 's'], rfl, rfl, rfl⟩
  | tan => exact ⟨'t', ['a', 'n'], rfl, rfl, rfl⟩
  | exp => exact ⟨'e', ['x', 'p'], rfl, rfl, rfl⟩
  | log => exact ⟨'l', ['o', 'g'], rfl, rfl, rfl⟩

theorem function?_name (f : Fn) : function? f.name = some (.call f) := by
  cases f <;> rfl

theorem shown_call (f : Fn) (ha : Shown 0 a) : Shown place (.call f a) := by
  refine shown_of_writes rfl ?_
  rw [textIn, asRead]
  have ha := ha.writes (by decide)
  exact (Writes.apply (isName_name f) (function?_name f) (·.call f) ha).ofPlace place

end

theorem occurrences_unsigned (e : Expr) : e.unsigned.occurrences = e.occurrences := by
  cases e with
  | const c =>
    rw [unsigned]
    split <;> rfl
  | _ => rfl

theorem occurrences_of_reciprocal? {e d : Expr} (h : e.reciprocal? = some d) {x : String}
    (hx : x ∈ d.occurrences) : x ∈ e.occurrences := by
  cases e with
  | div n d' =>
    simp only [reciprocal?, Option.ite_none_right_eq_some, Option.some.injEq] at h
    obtain ⟨-, rfl⟩ := h
    exact List.mem_append_right _ hx
  | _ => cases h

/-- The text of an expression writes what it is read as in every place. -/
theorem shown (place : Nat) (e : Expr) (h : ∀ x ∈ e.occurrences, IsName x) : Shown place e := by
  induction place, e using textIn.induct with
  | case1 place x => exact shown_of_writes rfl (by
      rw [textIn]; exact (h x (by simp [occurrences])).writes.ofPlace place)
  | case2 place c => exact shown_of_writes rfl (by
      rw [textIn]; exact Formula.writes_constText place c)
  | case3 place a b _ iha ihb =>
    rw [occurrences_unsigned] at ihb
    exact shown_add (iha fun x hx => h x (List.mem_append_left _ hx))
      (ihb fun x hx => h x (List.mem_append_right _ hx))
  | case4 place a b _ iha ihb =>
    rw [occurrences_unsigned] at ihb
    exact shown_sub (iha fun x hx => h x (List.mem_append_left _ hx))
      (ihb fun x hx => h x (List.mem_append_right _ hx))
  | case5 place a b _ _ _ ihd iha ihb =>
    rw [occurrences_unsigned] at iha ihb
    refine shown_mul (iha fun x hx => h x (List.mem_append_left _ hx))
      (ihb fun x hx => h x (List.mem_append_right _ hx)) fun d hd => ihd d hd fun x hx => ?_
    refine h x (List.mem_append_right _ ?_)
    rw [← occurrences_unsigned]
    exact occurrences_of_reciprocal? hd hx
  | case6 place a b _ _ iha ihb =>
    rw [occurrences_unsigned] at iha ihb
    exact shown_div (iha fun x hx => h x (List.mem_append_left _ hx))
      (ihb fun x hx => h x (List.mem_append_right _ hx))
  | case7 place a iha => exact shown_sqrt (iha fun x hx => h x (List.mem_append_left _ hx))
  | case8 place a b hb iha ihb =>
    exact shown_pow hb (iha fun x hx => h x (List.mem_append_left _ hx))
      (ihb fun x hx => h x (List.mem_append_right _ hx))
  | case9 place a _ iha =>
    rw [occurrences_unsigned] at iha
    exact shown_neg (iha h)
  | case10 place f a iha => exact shown_call f (iha h)

/-! ## Reading the text back -/

/-- The text of an expression is read, and as an expression with the values of `asRead`. -/
theorem writes_text (e : Expr) (h : ∀ x ∈ e.occurrences, IsName x) :
    ∃ d, Formula.parse? e.text = some d ∧ Same d e.asRead :=
  ((shown 0 e h).writes (Nat.zero_le 3)).parse?

/-- The text of an expression over ordinary names is always read.  What is read has the values of
the expression with the sign of every base moved in front of its power, and so the values of the
expression itself when no base opens with a sign. -/
theorem text_is_read (e : Expr) (h : ∀ x ∈ e.occurrences, IsName x) :
    ∃ d, Formula.parse? e.text = some d ∧
      (∀ s v, d.HasValue s v ↔ e.asRead.HasValue s v) ∧
      (e.hasSignedBase = false → ∀ s v, d.HasValue s v ↔ e.HasValue s v) := by
  obtain ⟨d, hd, hsame⟩ := writes_text e h
  refine ⟨d, hd, hsame, fun hbase => ?_⟩
  rw [asRead_eq_self hbase] at hsame
  exact hsame

theorem text_is_read_of_difference :
    let e : Expr := .sub (.const (-1 / 2)) (.neg (.mul (.var "Q") (.var "q1")))
    (∀ x ∈ e.occurrences, IsName x) ∧ ∃ d, Formula.parse? e.text = some d ∧
      (∀ s v, d.HasValue s v ↔ e.asRead.HasValue s v) ∧
      (e.hasSignedBase = false → ∀ s v, d.HasValue s v ↔ e.HasValue s v) := by
  have h : ∀ x ∈ ["Q", "q1"], IsName x := by
    intro x hx
    rcases List.mem_cons.1 hx with rfl | hx
    · exact ⟨'Q', [], rfl, rfl, rfl⟩
    · obtain rfl := List.mem_singleton.1 hx
      exact ⟨'q', ['1'], rfl, rfl, rfl⟩
  exact ⟨h, text_is_read _ h⟩

/-- The square of a negation is read as the negation of a square. -/
theorem negated_square_is_misread :
    ¬ ∃ d, Formula.parse? (Expr.pow (.neg (.var "Q")) (.const 2)).text = some d ∧
      ∀ s v, d.HasValue s v ↔ (Expr.pow (.neg (.var "Q")) (.const 2)).HasValue s v := by
  rintro ⟨d, hd, hsame⟩
  obtain ⟨d', hd', hread⟩ := writes_text (.pow (.neg (.var "Q")) (.const 2)) (by
    intro x hx
    obtain rfl : x = "Q" := by simpa [occurrences] using hx
    exact ⟨'Q', [], rfl, rfl, rfl⟩)
  cases hd.symm.trans hd'
  have hvalue : (Expr.pow (.neg (.var "Q")) (.const 2)).HasValue (fun _ => 1) 1 := by
    refine ⟨⟨trivial, trivial, ?_⟩, ?_⟩
    · simpa [real] using (powDefined_int_iff (x := -1) (n := 2)).2 (by simp)
    · simp [real]
  have hother := ((hread _ _).1 ((hsame _ _).2 hvalue)).2
  have hbase : (2 : Rat) ≠ 1 / 2 := by norm_num
  norm_num [asRead, opensWithSign, signed, hbase, real] at hother

end MarketAlgebra.Expr
