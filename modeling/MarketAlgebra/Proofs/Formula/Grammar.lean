import MarketAlgebra.Proofs.Formula.Scanning

/-!
# The grammar of formulas

`Derives` is the grammar as a relation between a list of tokens and the expression it spells, one
constructor for each alternative of a rule.  The level says which rule is meant.  Sums and products
are left-recursive here, which is how they associate.

The rules of `MarketAlgebra.Formula.Parser` follow it, character by character and with the first
alternative that succeeds.  `Derives.reads` says that each of them finds what the grammar derives
and stops there, as long as the tokens behind cannot be taken for a continuation (`EndsPower`,
`EndsProduct`).  `soundBelow` says that what a rule finds is derived, also where it leaves out a
part that failed.  Together, `parse?_eq_some_iff`: a whole text is read as an expression exactly
when it consists of tokens from which the grammar derives that expression.  So the order of the
alternatives and the failures that are passed over decide nothing about a whole text.
-/

namespace MarketAlgebra.Formula

/-! ## Derivations -/

/-- The rules of the grammar that derive expressions. -/
inductive Level where
  | sum
  | product
  | signed
  | power
  | primary
deriving DecidableEq, Repr

/-- The tokens spell the expression under a rule of the grammar. -/
inductive Derives : Level → List Token → Expr → Prop
| ofProduct {ts : List Token} {e : Expr} :
  Derives .product ts e →
  Derives .sum ts e
| plus {ts us : List Token} {a b : Expr} :
  Derives .sum ts a →
  Derives .product us b →
  Derives .sum (ts ++ .plus :: us) (.add a b)
| minus {ts us : List Token} {a b : Expr} :
  Derives .sum ts a →
  Derives .product us b →
  Derives .sum (ts ++ .minus :: us) (.sub a b)
| ofSigned {ts : List Token} {e : Expr} :
  Derives .signed ts e →
  Derives .product ts e
| times {ts us : List Token} {a b : Expr} :
  Derives .product ts a →
  Derives .signed us b →
  Derives .product (ts ++ .times :: us) (.mul a b)
| divided {ts us : List Token} {a b : Expr} :
  Derives .product ts a →
  Derives .signed us b →
  Derives .product (ts ++ .over :: us) (.div a b)
| ofPower {ts : List Token} {e : Expr} :
  Derives .power ts e →
  Derives .signed ts e
| negative {ts : List Token} {e : Expr} :
  Derives .signed ts e →
  Derives .signed (.minus :: ts) (.neg e)
| positive {ts : List Token} {e : Expr} :
  Derives .signed ts e →
  Derives .signed (.plus :: ts) e
| ofPrimary {ts : List Token} {e : Expr} :
  Derives .primary ts e →
  Derives .power ts e
| raise {ts us : List Token} {a b : Expr} :
  Derives .primary ts a →
  Derives .signed us b →
  Derives .power (ts ++ .power :: us) (.pow a b)
| number (c : Rat) :
  Derives .primary [.number c] (.const c)
| name (x : String) :
  Derives .primary [.name x] (.var x)
| enclose {ts : List Token} {e : Expr} :
  Derives .sum ts e →
  Derives .primary (.lparen :: ts ++ [.rparen]) e
| call {x : String} {f : Expr → Expr} {ts : List Token} {e : Expr} :
  function? x = some f →
  Derives .sum ts e →
  Derives .primary (.name x :: .lparen :: ts ++ [.rparen]) (f e)

/-- What is derived without a sign is derived with any number of them. -/
theorem Derives.primary_signed {ts : List Token} {e : Expr} (h : Derives .primary ts e) :
    Derives .signed ts e :=
  .ofPower (.ofPrimary h)

/-- A power with a number as its exponent. -/
theorem Derives.raise_number {ts : List Token} {a : Expr} (h : Derives .primary ts a) (c : Rat) :
    Derives .signed (ts ++ [.power, .number c]) (.pow a (.const c)) :=
  .ofPower (.raise h (Derives.number c).primary_signed)

/-- A number as a factor. -/
theorem Derives.number_times {ts : List Token} {a : Expr} (c : Rat) (h : Derives .signed ts a) :
    Derives .product (.number c :: .times :: ts) (.mul (.const c) a) :=
  .times (.ofSigned (Derives.number c).primary_signed) h

/-! ## The rules of the parser without their bounds -/

/-- A sum and what is left. -/
def sumOf (cs : List Char) : Option (Expr × List Char) := (sum? cs).map Parsed.pair

/-- The rest of a sum and what is left. -/
def moreTermsOf (left : Expr) (cs : List Char) : Expr × List Char := (moreTerms left cs).pair

/-- A product and what is left. -/
def productOf (cs : List Char) : Option (Expr × List Char) := (product? cs).map Parsed.pair

/-- The rest of a product and what is left. -/
def moreFactorsOf (left : Expr) (cs : List Char) : Expr × List Char := (moreFactors left cs).pair

/-- A signed part and what is left. -/
def signedOf (cs : List Char) : Option (Expr × List Char) := (signed? cs).map Parsed.pair

/-- A power and what is left. -/
def powerOf (cs : List Char) : Option (Expr × List Char) := (power? cs).map Parsed.pair

/-- A primary part and what is left. -/
def primaryOf (cs : List Char) : Option (Expr × List Char) := (primary? cs).map Parsed.pair

/-- A sum in parentheses and what is left. -/
def enclosedOf (cs : List Char) : Option (Expr × List Char) := (enclosed? cs).map Parsed.pair

/-- A call of a function and what is left. -/
def callOf (cs : List Char) : Option (Expr × List Char) := (call? cs).map Parsed.pair

/-- The first token of a text, if it is of a kind, and what is left. -/
def frontOf {α : Type} (kind : Token → Option α) (cs : List Char) : Option (α × List Char) :=
  (front cs).bind fun p => (kind p.1).map fun a => (a, p.2)

theorem sumOf_eq (cs : List Char) :
    sumOf cs = (productOf cs).map fun p => moreTermsOf p.1 p.2 := by
  unfold sumOf productOf moreTermsOf
  rw [sum?]
  cases product? cs <;> rfl

theorem moreTermsOf_eq (left : Expr) (cs : List Char) :
    moreTermsOf left cs = ((frontOf Token.termSign? cs).bind fun s =>
      (productOf s.2).map fun p => moreTermsOf (s.1 left p.1) p.2).getD (left, cs) := by
  unfold frontOf moreTermsOf productOf
  rw [← finds_termSign?.spaced cs, moreTerms]
  cases spaced termSign? cs with
  | none => rfl
  | some sign =>
    simp only [Option.map_some, Option.bind_some, Parsed.pair]
    cases product? sign.rest <;> rfl

theorem productOf_eq (cs : List Char) :
    productOf cs = (signedOf cs).map fun p => moreFactorsOf p.1 p.2 := by
  unfold productOf signedOf moreFactorsOf
  rw [product?]
  cases signed? cs <;> rfl

theorem moreFactorsOf_eq (left : Expr) (cs : List Char) :
    moreFactorsOf left cs = ((frontOf Token.factorSign? cs).bind fun s =>
      (signedOf s.2).map fun p => moreFactorsOf (s.1 left p.1) p.2).getD (left, cs) := by
  unfold frontOf moreFactorsOf signedOf
  rw [← finds_factorSign?.spaced cs, moreFactors]
  cases spaced factorSign? cs with
  | none => rfl
  | some sign =>
    simp only [Option.map_some, Option.bind_some, Parsed.pair]
    cases signed? sign.rest <;> rfl

theorem behindSignOf_eq {c : Char} {t : Token} (h : Finds (char? c) t.only?)
    (apply : Expr → Expr) (cs : List Char) :
    (behindSign? c apply cs).map Parsed.pair = (frontOf t.only? cs).bind fun s =>
      (signedOf s.2).map fun p => (apply p.1, p.2) := by
  unfold frontOf signedOf
  rw [← h.spaced cs, behindSign?]
  cases spaced (char? c) cs with
  | none => rfl
  | some sign =>
    simp only [Option.map_some, Option.bind_some, Parsed.pair]
    cases signed? sign.rest <;> rfl

theorem signedOf_eq (cs : List Char) :
    signedOf cs =
      (((frontOf Token.minus.only? cs).bind fun s => (signedOf s.2).map fun p => (.neg p.1, p.2))
        <|> ((frontOf Token.plus.only? cs).bind fun s => signedOf s.2) <|> powerOf cs) := by
  have hminus := behindSignOf_eq (finds_char? (c := '-') rfl nofun nofun) .neg cs
  have hplus := behindSignOf_eq (finds_char? (c := '+') rfl nofun nofun) id cs
  rw [← hminus]
  simp only [id_eq, Prod.eta, Option.map_id'] at hplus
  rw [← hplus]
  unfold signedOf powerOf
  rw [signed?]
  cases behindSign? '-' Expr.neg cs with
  | some p => rfl
  | none => cases behindSign? '+' id cs <;> rfl

theorem powerOf_eq (cs : List Char) :
    powerOf cs = (primaryOf cs).map fun p =>
      ((frontOf Token.powerSign? p.2).bind fun s =>
        (signedOf s.2).map fun q => (.pow p.1 q.1, q.2)).getD p := by
  unfold powerOf primaryOf signedOf
  rw [power?]
  cases primary? cs with
  | none => rfl
  | some base =>
    simp only [Option.map_some, Parsed.pair]
    rw [frontOf, ← finds_powerSign?.spaced base.rest]
    cases spaced powerSign? base.rest with
    | none => rfl
    | some sign =>
      simp only [Option.map_some, Option.bind_some, Parsed.pair]
      cases signed? sign.rest <;> rfl

theorem enclosedOf_eq (cs : List Char) :
    enclosedOf cs = (frontOf Token.lparen.only? cs).bind fun s => (sumOf s.2).bind fun p =>
      (frontOf Token.rparen.only? p.2).map fun r => (p.1, r.2) := by
  unfold enclosedOf sumOf frontOf
  rw [← (finds_char? (c := '(') rfl nofun nofun).spaced cs, enclosed?]
  cases spaced (char? '(') cs with
  | none => rfl
  | some opening =>
    simp only [Option.map_some, Option.bind_some, Parsed.pair]
    cases sum? opening.rest with
    | none => rfl
    | some p =>
      simp only [Option.map_some, Option.bind_some, Parsed.pair]
      rw [← (finds_char? (c := ')') rfl nofun nofun).spaced p.rest]
      cases spaced (char? ')') p.rest <;> rfl

theorem callOf_eq (cs : List Char) :
    callOf cs = ((spaced functionName? cs).map Parsed.pair).bind fun s =>
      (enclosedOf s.2).map fun p => (s.1 p.1, p.2) := by
  unfold callOf enclosedOf
  rw [call?]
  cases spaced functionName? cs with
  | none => rfl
  | some f =>
    simp only [Option.map_some, Option.bind_some, Parsed.pair]
    cases enclosed? f.rest <;> rfl

theorem primaryOf_eq (cs : List Char) :
    primaryOf cs = (enclosedOf cs <|> callOf cs <|>
      ((frontOf Token.number? cs).map fun p => (.const p.1, p.2)) <|>
        (frontOf Token.name? cs).map fun p => (.var p.1, p.2)) := by
  unfold primaryOf enclosedOf callOf frontOf
  rw [← finds_number?.spaced cs, ← finds_name?.spaced cs, primary?]
  cases enclosed? cs with
  | some p => rfl
  | none =>
    cases call? cs with
    | some p => rfl
    | none => cases spaced number? cs <;> cases spaced name? cs <;> rfl

/-! ## The first token of a kind -/

section

variable {α : Type} {kind : Token → Option α} {cs rest : List Char} {us : List Token} {t : Token}
  {a : α}

theorem frontOf_eq_some_iff :
    frontOf kind cs = some (a, rest) ↔ ∃ t, front cs = some (t, rest) ∧ kind t = some a := by
  constructor
  · intro h
    obtain ⟨p, hp, hk⟩ := Option.bind_eq_some_iff.1 h
    obtain ⟨b, hb, heq⟩ := Option.map_eq_some_iff.1 hk
    cases heq
    exact ⟨p.1, hp, hb⟩
  · rintro ⟨t, ht, hk⟩
    simp [frontOf, ht, hk]

theorem frontOf_of_tokens_cons (kind : Token → Option α) (h : tokens cs = some (t :: us))
    (ht : kind t = some a) :
    ∃ rest, frontOf kind cs = some (a, rest) ∧ tokens rest = some us := by
  obtain ⟨rest, hf, hrest⟩ := front_of_tokens_cons h
  exact ⟨rest, frontOf_eq_some_iff.2 ⟨t, hf, ht⟩, hrest⟩

/-- Nothing is found in front of a token that is not of the kind. -/
theorem frontOf_eq_none (h : tokens cs = some us) (hk : ∀ t, us.head? = some t → kind t = none) :
    frontOf kind cs = none := by
  refine Option.eq_none_iff_forall_ne_some.2 fun p hp => ?_
  obtain ⟨t, hf, ht⟩ := frontOf_eq_some_iff.1 hp
  rw [tokens_of_front hf] at h
  obtain ⟨vs, -, rfl⟩ := Option.map_eq_some_iff.1 h
  rw [hk t rfl] at ht
  cases ht

theorem Token.only?_eq_some_iff {t u : Token} : Token.only? t u = some () ↔ u = t := by
  simp [Token.only?]

theorem Token.only?_self (t : Token) : t.only? t = some () := Token.only?_eq_some_iff.2 rfl

theorem Token.only?_eq_none {t u : Token} (h : u ≠ t) : t.only? u = none := if_neg h

theorem frontOf_only_eq_none (h : tokens cs = some us) (ht : us.head? ≠ some t) :
    frontOf t.only? cs = none := by
  refine frontOf_eq_none h fun u hu => Token.only?_eq_none ?_
  rintro rfl
  exact ht hu

end

/-- A call is found where the name of a function stands in front of a sum in parentheses. -/
theorem callOf_eq_some_iff {cs rest : List Char} {e : Expr} :
    callOf cs = some (e, rest) ↔ ∃ x f r a, front cs = some (.name x, r) ∧ function? x = some f ∧
      enclosedOf r = some (a, rest) ∧ f a = e := by
  rw [callOf_eq]
  constructor
  · intro h
    obtain ⟨⟨f, r⟩, hs, hmap⟩ := Option.bind_eq_some_iff.1 h
    obtain ⟨⟨a, _⟩, ha, heq⟩ := Option.map_eq_some_iff.1 hmap
    cases heq
    have hopen := ha
    rw [enclosedOf_eq] at hopen
    obtain ⟨⟨_, r'⟩, hr, -⟩ := Option.bind_eq_some_iff.1 hopen
    obtain ⟨t, hf, ht⟩ := frontOf_eq_some_iff.1 hr
    obtain rfl := Token.only?_eq_some_iff.1 ht
    obtain ⟨x, hx, hname⟩ := front_of_functionName? hs hf
    exact ⟨x, f, r, a, hname, hx, ha, rfl⟩
  · rintro ⟨x, f, r, a, hname, hx, ha, rfl⟩
    rw [functionName?_of_front hname hx, Option.bind_some, ha]
    rfl

/-! ## What the grammar derives is read -/

/-- The tokens cannot continue a power. -/
def EndsPower (ts : List Token) : Prop := ts.head? ≠ some .lparen ∧ ts.head? ≠ some .power

/-- The tokens cannot continue a product. -/
def EndsProduct (ts : List Token) : Prop :=
  EndsPower ts ∧ ts.head? ≠ some .times ∧ ts.head? ≠ some .over

theorem endsProduct_nil : EndsProduct [] := by simp [EndsProduct, EndsPower]

theorem endsProduct_rparen (ts : List Token) : EndsProduct (.rparen :: ts) := by
  simp [EndsProduct, EndsPower]

section

variable {cs rest r : List Char} {us : List Token} {left b : Expr} {f : Expr → Expr → Expr}

theorem moreTermsOf_sign (hs : frontOf Token.termSign? cs = some (f, rest))
    (hp : productOf rest = some (b, r)) : moreTermsOf left cs = moreTermsOf (f left b) r := by
  rw [moreTermsOf_eq, hs, Option.bind_some, hp]
  rfl

theorem moreTermsOf_stop (h : tokens cs = some us) (hp : us.head? ≠ some .plus)
    (hm : us.head? ≠ some .minus) : moreTermsOf left cs = (left, cs) := by
  rw [moreTermsOf_eq, frontOf_eq_none h]
  · rfl
  · intro t ht
    cases t with
    | plus => exact absurd ht hp
    | minus => exact absurd ht hm
    | _ => rfl

theorem moreFactorsOf_sign (hs : frontOf Token.factorSign? cs = some (f, rest))
    (hp : signedOf rest = some (b, r)) : moreFactorsOf left cs = moreFactorsOf (f left b) r := by
  rw [moreFactorsOf_eq, hs, Option.bind_some, hp]
  rfl

theorem moreFactorsOf_stop (h : tokens cs = some us) (ht : us.head? ≠ some .times)
    (ho : us.head? ≠ some .over) : moreFactorsOf left cs = (left, cs) := by
  rw [moreFactorsOf_eq, frontOf_eq_none h]
  · rfl
  · intro t hhead
    match t with
    | .times => exact absurd hhead ht
    | .over => exact absurd hhead ho
    | .number _ | .name _ | .plus | .minus | .power | .lparen | .rparen => rfl

end

/-- The rule of a level reads the tokens as the expression and stops behind them.  In front of
another operator of its own, a sum or a product goes on with the expression as its left part. -/
def Level.Reads : Level → List Token → Expr → Prop
  | .sum, ts, e => ∀ {cs us}, tokens cs = some (ts ++ us) → EndsProduct us →
      ∃ rest, tokens rest = some us ∧ sumOf cs = some (moreTermsOf e rest)
  | .product, ts, e => ∀ {cs us}, tokens cs = some (ts ++ us) → EndsPower us →
      ∃ rest, tokens rest = some us ∧ productOf cs = some (moreFactorsOf e rest)
  | .signed, ts, e => ∀ {cs us}, tokens cs = some (ts ++ us) → EndsPower us →
      ∃ rest, tokens rest = some us ∧ signedOf cs = some (e, rest)
  | .power, ts, e => ∀ {cs us}, tokens cs = some (ts ++ us) → EndsPower us →
      ∃ rest, tokens rest = some us ∧ powerOf cs = some (e, rest)
  | .primary, ts, e => ∀ {cs us}, tokens cs = some (ts ++ us) → us.head? ≠ some .lparen →
      ∃ rest, tokens rest = some us ∧ primaryOf cs = some (e, rest)

/-- A primary part does not start with a sign. -/
theorem Derives.primary_head {ts : List Token} {e : Expr} (h : Derives .primary ts e) :
    ∃ t us, ts = t :: us ∧ t ≠ .plus ∧ t ≠ .minus := by
  cases h with
  | number c => exact ⟨_, _, rfl, by simp, by simp⟩
  | name x => exact ⟨_, _, rfl, by simp, by simp⟩
  | enclose _ => exact ⟨_, _, rfl, by simp, by simp⟩
  | call _ _ => exact ⟨_, _, rfl, by simp, by simp⟩

/-- A power does not start with a sign. -/
theorem Derives.power_head {ts : List Token} {e : Expr} (h : Derives .power ts e) :
    ∃ t us, ts = t :: us ∧ t ≠ .plus ∧ t ≠ .minus := by
  cases h with
  | ofPrimary h => exact h.primary_head
  | raise ha _ =>
    obtain ⟨t, us, rfl, hp, hm⟩ := ha.primary_head
    exact ⟨t, _, rfl, hp, hm⟩

theorem Level.Reads.product_stop {ts us : List Token} {e : Expr} {cs : List Char}
    (h : Level.product.Reads ts e) (hcs : tokens cs = some (ts ++ us)) (hus : EndsProduct us) :
    ∃ rest, tokens rest = some us ∧ productOf cs = some (e, rest) := by
  obtain ⟨hend, ht, ho⟩ := hus
  obtain ⟨rest, hrest, hp⟩ := h hcs hend
  exact ⟨rest, hrest, by rw [hp, moreFactorsOf_stop hrest ht ho]⟩

theorem Level.Reads.enclosed {ts us : List Token} {e : Expr} {cs : List Char}
    (h : Level.sum.Reads ts e) (hcs : tokens cs = some (.lparen :: (ts ++ .rparen :: us))) :
    ∃ rest, tokens rest = some us ∧ enclosedOf cs = some (e, rest) := by
  obtain ⟨r, hopen, hr⟩ := frontOf_of_tokens_cons _ hcs (Token.only?_self .lparen)
  obtain ⟨r', hr', hsum⟩ := h hr (endsProduct_rparen us)
  obtain ⟨rest, hclose, hrest⟩ := frontOf_of_tokens_cons _ hr' (Token.only?_self .rparen)
  refine ⟨rest, hrest, ?_⟩
  rw [moreTermsOf_stop hr' (by simp) (by simp)] at hsum
  rw [enclosedOf_eq, hopen, Option.bind_some, hsum, Option.bind_some, hclose]
  rfl

theorem enclosedOf_eq_none {cs : List Char} {us : List Token} (h : tokens cs = some us)
    (hus : us.head? ≠ some .lparen) : enclosedOf cs = none := by
  rw [enclosedOf_eq, frontOf_only_eq_none h hus]
  rfl

/-- No call is found where no parenthesis follows. -/
theorem callOf_eq_none {cs : List Char} {t : Token} {us : List Token}
    (h : tokens cs = some (t :: us)) (hus : us.head? ≠ some .lparen) : callOf cs = none := by
  refine Option.eq_none_iff_forall_ne_some.2 fun p hp => ?_
  obtain ⟨x, f, r, a, hname, -, ha, -⟩ := callOf_eq_some_iff.1 hp
  rw [tokens_of_front hname] at h
  obtain ⟨vs, hvs, heq⟩ := Option.map_eq_some_iff.1 h
  cases heq
  rw [enclosedOf_eq_none hvs hus] at ha
  cases ha

/-- A sum goes on with a sign and a product. -/
theorem Level.Reads.term {ts us : List Token} {t : Token} {f : Expr → Expr → Expr} {a b : Expr}
    (ht : t.termSign? = some f) (ha : Level.sum.Reads ts a) (hb : Level.product.Reads us b) :
    Level.sum.Reads (ts ++ t :: us) (f a b) := by
  intro cs vs hcs hvs
  rw [List.append_assoc] at hcs
  have hends : EndsProduct (t :: us ++ vs) := by
    cases t with
    | plus | minus => simp [EndsProduct, EndsPower]
    | _ => cases ht
  obtain ⟨r, hr, hsum⟩ := ha hcs hends
  obtain ⟨r', hsign, hr'⟩ := frontOf_of_tokens_cons _ hr ht
  obtain ⟨rest, hrest, hp⟩ := hb.product_stop hr' hvs
  exact ⟨rest, hrest, by rw [hsum, moreTermsOf_sign hsign hp]⟩

/-- A product goes on with a sign and a signed power. -/
theorem Level.Reads.factor {ts us : List Token} {t : Token} {f : Expr → Expr → Expr} {a b : Expr}
    (ht : t.factorSign? = some f) (ha : Level.product.Reads ts a) (hb : Level.signed.Reads us b) :
    Level.product.Reads (ts ++ t :: us) (f a b) := by
  intro cs vs hcs hvs
  rw [List.append_assoc] at hcs
  have hends : EndsPower (t :: us ++ vs) := by
    cases t with
    | lparen | power => cases ht
    | _ => simp [EndsPower]
  obtain ⟨r, hr, hproduct⟩ := ha hcs hends
  obtain ⟨r', hsign, hr'⟩ := frontOf_of_tokens_cons _ hr ht
  obtain ⟨rest, hrest, hp⟩ := hb hr' hvs
  exact ⟨rest, hrest, by rw [hproduct, moreFactorsOf_sign hsign hp]⟩

/-- The rules of the parser read what the grammar derives. -/
theorem Derives.reads {l : Level} {ts : List Token} {e : Expr} (h : Derives l ts e) :
    l.Reads ts e := by
  induction h with
  | ofProduct _ ih =>
    intro cs us hcs hus
    obtain ⟨rest, hrest, hp⟩ := ih.product_stop hcs hus
    exact ⟨rest, hrest, by rw [sumOf_eq, hp]; rfl⟩
  | plus _ _ iha ihb => exact iha.term rfl ihb
  | minus _ _ iha ihb => exact iha.term rfl ihb
  | ofSigned _ ih =>
    intro cs us hcs hus
    obtain ⟨rest, hrest, hp⟩ := ih hcs hus
    exact ⟨rest, hrest, by rw [productOf_eq, hp]; rfl⟩
  | times _ _ iha ihb => exact iha.factor rfl ihb
  | divided _ _ iha ihb => exact iha.factor rfl ihb
  | ofPower h ih =>
    intro cs us hcs hus
    obtain ⟨t, ts, rfl, hp, hm⟩ := h.power_head
    obtain ⟨rest, hrest, hpower⟩ := ih hcs hus
    refine ⟨rest, hrest, ?_⟩
    rw [signedOf_eq, frontOf_only_eq_none hcs (by simpa using hm),
      frontOf_only_eq_none hcs (by simpa using hp)]
    exact hpower
  | negative _ ih =>
    intro cs us hcs hus
    obtain ⟨r, hsign, hr⟩ := frontOf_of_tokens_cons _ hcs (Token.only?_self .minus)
    obtain ⟨rest, hrest, hp⟩ := ih hr hus
    refine ⟨rest, hrest, ?_⟩
    rw [signedOf_eq, hsign, Option.bind_some, hp]
    rfl
  | positive _ ih =>
    intro cs us hcs hus
    obtain ⟨r, hsign, hr⟩ := frontOf_of_tokens_cons _ hcs (Token.only?_self .plus)
    obtain ⟨rest, hrest, hp⟩ := ih hr hus
    refine ⟨rest, hrest, ?_⟩
    rw [signedOf_eq, frontOf_only_eq_none hcs (by simp), hsign, Option.bind_some, hp]
    rfl
  | ofPrimary _ ih =>
    rintro cs us hcs ⟨hl, hp⟩
    obtain ⟨rest, hrest, hprimary⟩ := ih hcs hl
    refine ⟨rest, hrest, ?_⟩
    rw [powerOf_eq, hprimary, Option.map_some, frontOf_eq_none hrest]
    · rfl
    · intro t ht
      cases t with
      | power => exact absurd ht hp
      | _ => rfl
  | @raise ts us a b _ _ iha ihb =>
    intro cs vs hcs hvs
    rw [List.append_assoc] at hcs
    obtain ⟨r, hr, hprimary⟩ := iha hcs (by simp)
    obtain ⟨r', hsign, hr'⟩ := frontOf_of_tokens_cons Token.powerSign? hr rfl
    obtain ⟨rest, hrest, hp⟩ := ihb hr' hvs
    refine ⟨rest, hrest, ?_⟩
    rw [powerOf_eq, hprimary, Option.map_some, hsign, Option.bind_some, hp]
    rfl
  | number c =>
    intro cs us hcs hus
    obtain ⟨rest, hn, hrest⟩ := frontOf_of_tokens_cons Token.number? hcs rfl
    refine ⟨rest, hrest, ?_⟩
    rw [primaryOf_eq, enclosedOf_eq_none hcs (by simp), callOf_eq_none hcs hus, hn]
    rfl
  | name x =>
    intro cs us hcs hus
    obtain ⟨rest, hn, hrest⟩ := frontOf_of_tokens_cons Token.name? hcs rfl
    refine ⟨rest, hrest, ?_⟩
    rw [primaryOf_eq, enclosedOf_eq_none hcs (by simp), callOf_eq_none hcs hus,
      frontOf_eq_none hcs, hn]
    · rfl
    · intro t ht
      cases ht
      rfl
  | @enclose ts e _ ih =>
    intro cs us hcs _
    have hopen : tokens cs = some (.lparen :: (ts ++ .rparen :: us)) := by simpa using hcs
    obtain ⟨rest, hrest, hp⟩ := ih.enclosed hopen
    refine ⟨rest, hrest, ?_⟩
    rw [primaryOf_eq, hp]
    rfl
  | @call x f ts e hf _ ih =>
    intro cs us hcs _
    obtain ⟨r, hname, hr⟩ := front_of_tokens_cons hcs
    have hopen : tokens r = some (.lparen :: (ts ++ .rparen :: us)) := by simpa using hr
    obtain ⟨rest, hrest, hp⟩ := ih.enclosed hopen
    refine ⟨rest, hrest, ?_⟩
    rw [primaryOf_eq, enclosedOf_eq_none hcs (by simp),
      callOf_eq_some_iff.2 ⟨x, f, r, e, hname, hf, hp, rfl⟩]
    rfl

/-! ## What is read is derived -/

/-- The tokens are taken from the front of a text, and a text is left. -/
def Takes (cs : List Char) (used : List Token) (rest : List Char) : Prop :=
  tokens cs = (tokens rest).map (used ++ ·)

theorem Takes.refl (cs : List Char) : Takes cs [] cs := by simp [Takes]

theorem Takes.trans {cs ds es : List Char} {ts us : List Token} (h : Takes cs ts ds)
    (h' : Takes ds us es) : Takes cs (ts ++ us) es := by
  unfold Takes at *
  rw [h, h', Option.map_map]
  simp [Function.comp_def]

theorem Takes.of_front {cs rest : List Char} {t : Token} (h : front cs = some (t, rest)) :
    Takes cs [t] rest :=
  tokens_of_front h

/-- Every rule of the parser derives what it reads from the tokens it takes, on texts of fewer than
`n` characters. -/
structure SoundBelow (n : Nat) : Prop where
  /-- A sum in parentheses. -/
  enclosed : ∀ {cs rest e}, cs.length < n → enclosedOf cs = some (e, rest) →
    ∃ used, Takes cs (.lparen :: used ++ [.rparen]) rest ∧ Derives .sum used e
  /-- A signed part. -/
  signed : ∀ {cs rest e}, cs.length < n → signedOf cs = some (e, rest) →
    ∃ used, Takes cs used rest ∧ Derives .signed used e
  /-- A product. -/
  product : ∀ {cs rest e}, cs.length < n → productOf cs = some (e, rest) →
    ∃ used, Takes cs used rest ∧ Derives .product used e
  /-- A sum. -/
  sum : ∀ {cs rest e}, cs.length < n → sumOf cs = some (e, rest) →
    ∃ used, Takes cs used rest ∧ Derives .sum used e
  /-- The rest of a product, behind a left part. -/
  moreFactors : ∀ {cs rest left e}, cs.length < n → moreFactorsOf left cs = (e, rest) →
    ∀ {before}, Derives .product before left →
      ∃ used, Takes cs used rest ∧ Derives .product (before ++ used) e
  /-- The rest of a sum, behind a left part. -/
  moreTerms : ∀ {cs rest left e}, cs.length < n → moreTermsOf left cs = (e, rest) →
    ∀ {before}, Derives .sum before left →
      ∃ used, Takes cs used rest ∧ Derives .sum (before ++ used) e

section

variable {cs rest r : List Char} {left e b : Expr}

theorem length_frontOf {α : Type} {kind : Token → Option α} {a : α}
    (h : frontOf kind cs = some (a, rest)) : rest.length < cs.length := by
  obtain ⟨t, hf, -⟩ := frontOf_eq_some_iff.1 h
  exact length_front hf

theorem length_signedOf (h : signedOf cs = some (e, rest)) : rest.length < cs.length := by
  obtain ⟨p, -, hp⟩ := Option.map_eq_some_iff.1 h
  cases hp
  exact p.short

theorem length_productOf (h : productOf cs = some (e, rest)) : rest.length < cs.length := by
  obtain ⟨p, -, hp⟩ := Option.map_eq_some_iff.1 h
  cases hp
  exact p.short

theorem length_primaryOf (h : primaryOf cs = some (e, rest)) : rest.length < cs.length := by
  obtain ⟨p, -, hp⟩ := Option.map_eq_some_iff.1 h
  cases hp
  exact p.short

theorem Takes.of_only {t : Token} {u : Unit} (h : frontOf t.only? cs = some (u, rest)) :
    Takes cs [t] rest := by
  obtain ⟨t', hf, ht⟩ := frontOf_eq_some_iff.1 h
  obtain rfl := Token.only?_eq_some_iff.1 ht
  exact .of_front hf

theorem SoundBelow.enclosed_step (h : SoundBelow cs.length)
    (hp : enclosedOf cs = some (e, rest)) :
    ∃ used, Takes cs (.lparen :: used ++ [.rparen]) rest ∧ Derives .sum used e := by
  rw [enclosedOf_eq] at hp
  obtain ⟨⟨_, r⟩, hopen, hp⟩ := Option.bind_eq_some_iff.1 hp
  obtain ⟨⟨a, r'⟩, hsum, hp⟩ := Option.bind_eq_some_iff.1 hp
  obtain ⟨⟨_, r''⟩, hclose, heq⟩ := Option.map_eq_some_iff.1 hp
  cases heq
  obtain ⟨used, htakes, hd⟩ := h.sum (length_frontOf hopen) hsum
  exact ⟨used, (Takes.of_only hopen).trans (htakes.trans (.of_only hclose)), hd⟩

theorem SoundBelow.primary_step (h : SoundBelow cs.length) (hp : primaryOf cs = some (e, rest)) :
    ∃ used, Takes cs used rest ∧ Derives .primary used e := by
  rw [primaryOf_eq] at hp
  simp only [Option.orElse_eq_orElse, Option.orElse_eq_or, Option.or_eq_some_iff] at hp
  rcases hp with henclosed | ⟨-, hcall | ⟨-, hnumber | ⟨-, hname⟩⟩⟩
  · obtain ⟨used, htakes, hd⟩ := h.enclosed_step henclosed
    exact ⟨_, htakes, .enclose hd⟩
  · obtain ⟨x, f, r, a, hname, hf, ha, rfl⟩ := callOf_eq_some_iff.1 hcall
    obtain ⟨used, htakes, hd⟩ := h.enclosed (length_front hname) ha
    exact ⟨_, (Takes.of_front hname).trans htakes, .call hf hd⟩
  · obtain ⟨⟨c, r⟩, hc, heq⟩ := Option.map_eq_some_iff.1 hnumber
    obtain ⟨t, hf, ht⟩ := frontOf_eq_some_iff.1 hc
    cases t with
    | number a =>
      cases ht
      cases heq
      exact ⟨_, .of_front hf, .number _⟩
    | _ => cases ht
  · obtain ⟨⟨x, r⟩, hx, heq⟩ := Option.map_eq_some_iff.1 hname
    obtain ⟨t, hf, ht⟩ := frontOf_eq_some_iff.1 hx
    cases t with
    | name y =>
      cases ht
      cases heq
      exact ⟨_, .of_front hf, .name _⟩
    | _ => cases ht

/-- An optional part is left out or read. -/
theorem getD_eq_cases {α : Type} {o : Option α} {a b : α} (h : o.getD a = b) :
    o = none ∧ a = b ∨ o = some b := by
  cases o with
  | none => exact .inl ⟨rfl, h⟩
  | some c => exact .inr (congrArg some h)

theorem SoundBelow.power_step (h : SoundBelow cs.length) (hp : powerOf cs = some (e, rest)) :
    ∃ used, Takes cs used rest ∧ Derives .power used e := by
  rw [powerOf_eq] at hp
  obtain ⟨⟨a, r⟩, ha, hmore⟩ := Option.map_eq_some_iff.1 hp
  obtain ⟨used, htakes, hd⟩ := h.primary_step ha
  rcases getD_eq_cases hmore with ⟨-, heq⟩ | hraise
  · cases heq
    exact ⟨used, htakes, .ofPrimary hd⟩
  · obtain ⟨⟨_, r'⟩, hsign, hmap⟩ := Option.bind_eq_some_iff.1 hraise
    obtain ⟨⟨b, r''⟩, hb, heq⟩ := Option.map_eq_some_iff.1 hmap
    cases heq
    obtain ⟨t, hf, ht⟩ := frontOf_eq_some_iff.1 hsign
    cases t with
    | power =>
      have hshort : r'.length < cs.length := (length_front hf).trans (length_primaryOf ha)
      obtain ⟨used', htakes', hd'⟩ := h.signed hshort hb
      exact ⟨_, htakes.trans ((Takes.of_front hf).trans htakes'), .raise hd hd'⟩
    | _ => cases ht

theorem SoundBelow.signed_step (h : SoundBelow cs.length) (hp : signedOf cs = some (e, rest)) :
    ∃ used, Takes cs used rest ∧ Derives .signed used e := by
  rw [signedOf_eq] at hp
  simp only [Option.orElse_eq_orElse, Option.orElse_eq_or, Option.or_eq_some_iff] at hp
  rcases hp with hminus | ⟨-, hplus | ⟨-, hpower⟩⟩
  · obtain ⟨⟨_, r⟩, hsign, hmap⟩ := Option.bind_eq_some_iff.1 hminus
    obtain ⟨⟨a, r'⟩, ha, heq⟩ := Option.map_eq_some_iff.1 hmap
    cases heq
    obtain ⟨used, htakes, hd⟩ := h.signed (length_frontOf hsign) ha
    exact ⟨_, (Takes.of_only hsign).trans htakes, .negative hd⟩
  · obtain ⟨⟨_, r⟩, hsign, ha⟩ := Option.bind_eq_some_iff.1 hplus
    obtain ⟨used, htakes, hd⟩ := h.signed (length_frontOf hsign) ha
    exact ⟨_, (Takes.of_only hsign).trans htakes, .positive hd⟩
  · obtain ⟨used, htakes, hd⟩ := h.power_step hpower
    exact ⟨used, htakes, .ofPower hd⟩

theorem SoundBelow.moreFactors_step (h : SoundBelow cs.length)
    (hp : moreFactorsOf left cs = (e, rest)) {before : List Token}
    (hl : Derives .product before left) :
    ∃ used, Takes cs used rest ∧ Derives .product (before ++ used) e := by
  rw [moreFactorsOf_eq] at hp
  rcases getD_eq_cases hp with ⟨-, heq⟩ | hmore
  · cases heq
    exact ⟨[], .refl cs, by simpa using hl⟩
  · obtain ⟨⟨f, r⟩, hsign, hmap⟩ := Option.bind_eq_some_iff.1 hmore
    obtain ⟨⟨b, r'⟩, hb, hrest⟩ := Option.map_eq_some_iff.1 hmap
    obtain ⟨t, hf, ht⟩ := frontOf_eq_some_iff.1 hsign
    obtain ⟨used, htakes, hd⟩ := h.signed (length_front hf) hb
    have hshort : r'.length < cs.length := (length_signedOf hb).trans (length_front hf)
    have hl' : Derives .product (before ++ t :: used) (f left b) := by
      match t with
      | .times =>
        cases ht
        exact .times hl hd
      | .over =>
        cases ht
        exact .divided hl hd
      | .number _ | .name _ | .plus | .minus | .power | .lparen | .rparen => cases ht
    obtain ⟨used', htakes', hd'⟩ := h.moreFactors hshort hrest hl'
    exact ⟨_, (Takes.of_front hf).trans (htakes.trans htakes'), by simpa using hd'⟩

theorem SoundBelow.product_step (h : SoundBelow cs.length) (hp : productOf cs = some (e, rest)) :
    ∃ used, Takes cs used rest ∧ Derives .product used e := by
  rw [productOf_eq] at hp
  obtain ⟨⟨a, r⟩, ha, hmore⟩ := Option.map_eq_some_iff.1 hp
  obtain ⟨used, htakes, hd⟩ := h.signed_step ha
  obtain ⟨used', htakes', hd'⟩ := h.moreFactors (length_signedOf ha) hmore (.ofSigned hd)
  exact ⟨_, htakes.trans htakes', hd'⟩

theorem SoundBelow.moreTerms_step (h : SoundBelow cs.length)
    (hp : moreTermsOf left cs = (e, rest)) {before : List Token}
    (hl : Derives .sum before left) :
    ∃ used, Takes cs used rest ∧ Derives .sum (before ++ used) e := by
  rw [moreTermsOf_eq] at hp
  rcases getD_eq_cases hp with ⟨-, heq⟩ | hmore
  · cases heq
    exact ⟨[], .refl cs, by simpa using hl⟩
  · obtain ⟨⟨f, r⟩, hsign, hmap⟩ := Option.bind_eq_some_iff.1 hmore
    obtain ⟨⟨b, r'⟩, hb, hrest⟩ := Option.map_eq_some_iff.1 hmap
    obtain ⟨t, hf, ht⟩ := frontOf_eq_some_iff.1 hsign
    obtain ⟨used, htakes, hd⟩ := h.product (length_front hf) hb
    have hshort : r'.length < cs.length := (length_productOf hb).trans (length_front hf)
    have hl' : Derives .sum (before ++ t :: used) (f left b) := by
      cases t with
      | plus =>
        cases ht
        exact .plus hl hd
      | minus =>
        cases ht
        exact .minus hl hd
      | _ => cases ht
    obtain ⟨used', htakes', hd'⟩ := h.moreTerms hshort hrest hl'
    exact ⟨_, (Takes.of_front hf).trans (htakes.trans htakes'), by simpa using hd'⟩

theorem SoundBelow.sum_step (h : SoundBelow cs.length) (hp : sumOf cs = some (e, rest)) :
    ∃ used, Takes cs used rest ∧ Derives .sum used e := by
  rw [sumOf_eq] at hp
  obtain ⟨⟨a, r⟩, ha, hmore⟩ := Option.map_eq_some_iff.1 hp
  obtain ⟨used, htakes, hd⟩ := h.product_step ha
  obtain ⟨used', htakes', hd'⟩ := h.moreTerms (length_productOf ha) hmore (.ofProduct hd)
  exact ⟨_, htakes.trans htakes', hd'⟩

end

/-- The parser is sound on texts of any length. -/
theorem soundBelow (n : Nat) : SoundBelow n := by
  induction n using Nat.strongRecOn with
  | ind n ih =>
    exact {
      enclosed := fun hn => (ih _ hn).enclosed_step
      signed := fun hn => (ih _ hn).signed_step
      product := fun hn => (ih _ hn).product_step
      sum := fun hn => (ih _ hn).sum_step
      moreFactors := fun hn => (ih _ hn).moreFactors_step
      moreTerms := fun hn => (ih _ hn).moreTerms_step }

/-! ## The grammar and the parser agree -/

/-- A text is read as an expression exactly when it has tokens and the grammar derives the
expression from them. -/
theorem parse?_eq_some_iff {text : String} {e : Expr} :
    parse? text = some e ↔ ∃ ts, tokens text.toList = some ts ∧ Derives .sum ts e := by
  have hparse : parse? text = (sumOf (skip text.toList)).bind fun p =>
      if (skip p.2).isEmpty then some p.1 else none := by
    unfold parse? sumOf
    cases sum? (skip text.toList) <;> rfl
  rw [hparse, ← tokens_skip]
  constructor
  · intro h
    obtain ⟨⟨a, rest⟩, hsum, hval⟩ := Option.bind_eq_some_iff.1 h
    obtain ⟨used, htakes, hd⟩ := (soundBelow _).sum_step hsum
    split at hval
    next hempty =>
      cases hval
      have hrest : tokens rest = some [] := skip_eq_nil_iff.1 (List.isEmpty_iff.1 hempty)
      exact ⟨used, by rw [htakes, hrest]; simp, hd⟩
    next => cases hval
  · rintro ⟨ts, hts, hd⟩
    rw [← List.append_nil ts] at hts
    obtain ⟨rest, hrest, hsum⟩ := hd.reads hts endsProduct_nil
    rw [hsum, moreTermsOf_stop hrest (by simp) (by simp)]
    simp [skip_eq_nil_iff.2 hrest]

end MarketAlgebra.Formula
