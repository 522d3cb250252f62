import Mathlib.Algebra.BigOperators.Group.List.Basic
import MarketAlgebra.Proofs.Value
import MarketAlgebra.Simplify.Product

/-!
# Products in normal form keep their value

The steps of `MarketAlgebra.Simplify.Product` are read as laws about real products.  A list of
factors stands for the product of its values (`productReal`), and a table of exponents for the
product of the powers in it (`Exponents.real`).

A table may be added to in any order because of one invariant, `Exponents.Valid`: every exponent is
an integer, and a base with a negative exponent is not zero.  It is what makes `x ^ d * x ^ e` and
`x ^ (d + e)` equal also for a base `x` that is zero.  Factors below the bar satisfy it since their
product, a divisor, is not zero.
-/

namespace MarketAlgebra.Simplify

open MarketAlgebra.Expr

variable {s : String → ℝ}

/-- Negating keeps the value. -/
theorem keeps_neg (s : String → ℝ) (a : Expr) : Keeps s (.neg a) (neg a) := by
  intro da
  cases a with
  | const c => exact ⟨trivial, by simp [neg, real]⟩
  | neg a => exact ⟨da, by simp [neg, real]⟩
  | _ => exact ⟨da, rfl⟩

/-! ## Lists of factors -/

/-- Whether every expression of a list has a value. -/
def AllDefined (s : String → ℝ) (es : List Expr) : Prop := ∀ e ∈ es, e.Defined s

/-- The product of the values of a list. -/
noncomputable def productReal (s : String → ℝ) (es : List Expr) : ℝ := (es.map (real s)).prod

@[simp] theorem productReal_nil : productReal s [] = 1 := rfl

@[simp] theorem productReal_cons (e : Expr) (es : List Expr) :
    productReal s (e :: es) = e.real s * productReal s es := by
  simp [productReal]

@[simp] theorem productReal_append (es ds : List Expr) :
    productReal s (es ++ ds) = productReal s es * productReal s ds := by
  simp [productReal]

theorem productReal_perm {es ds : List Expr} (h : es.Perm ds) :
    productReal s es = productReal s ds :=
  (h.map _).prod_eq

theorem productReal_sort (es : List Expr) : productReal s (sort es) = productReal s es :=
  productReal_perm (sort_perm es)

/-- Ones can be left out of a product. -/
theorem productReal_filter_not_isOne (es : List Expr) :
    productReal s (es.filter fun e => !e.isOne) = productReal s es := by
  induction es with
  | nil => rfl
  | cons e es ih =>
    cases h : e.isOne with
    | true => simp [h, ih, real_of_isOne h]
    | false => simp [h, ih]

@[simp] theorem allDefined_nil : AllDefined s [] := by simp [AllDefined]

@[simp] theorem allDefined_cons {e : Expr} {es : List Expr} :
    AllDefined s (e :: es) ↔ e.Defined s ∧ AllDefined s es := by
  simp [AllDefined]

theorem AllDefined.append {es ds : List Expr} (he : AllDefined s es) (hd : AllDefined s ds) :
    AllDefined s (es ++ ds) :=
  fun e h => (List.mem_append.1 h).elim (he e) (hd e)

theorem AllDefined.sort {es : List Expr} (h : AllDefined s es) : AllDefined s (sort es) :=
  fun e he => h e ((sort_perm es).mem_iff.1 he)

/-- The factors of an expression have its value as their product. -/
theorem factors_spec {e : Expr} (h : e.Defined s) :
    AllDefined s (factors e) ∧ productReal s (factors e) = e.real s := by
  induction e with
  | mul a b iha ihb =>
    obtain ⟨da, ha⟩ := iha h.1
    obtain ⟨db, hb⟩ := ihb h.2
    exact ⟨da.append db, by simp only [factors, productReal_append, ha, hb, real]⟩
  | const c =>
    simp only [factors]
    split
    next hone => exact ⟨allDefined_nil, (real_of_isOne hone).symm⟩
    next => exact ⟨by simp, by simp⟩
  | _ => exact ⟨by simpa [factors, isOne, constant?] using h, by simp [factors, isOne, constant?]⟩

/-- Multiplying from the left multiplies the values. -/
theorem foldl_mul_spec {f : Expr} {fs : List Expr} (hf : f.Defined s) (hfs : AllDefined s fs) :
    (fs.foldl .mul f).HasValue s (f.real s * productReal s fs) := by
  induction fs generalizing f with
  | nil => exact ⟨hf, by simp⟩
  | cons g gs ih =>
    obtain ⟨hg, hgs⟩ := allDefined_cons.1 hfs
    obtain ⟨hd, hr⟩ := ih (f := .mul f g) ⟨hf, hg⟩ hgs
    exact ⟨hd, by rw [List.foldl_cons, hr, real, productReal_cons, mul_assoc]⟩

/-- The product of a list has the product of the values as its value. -/
theorem product_spec {fs : List Expr} (h : AllDefined s fs) :
    (product fs).HasValue s (productReal s fs) := by
  have hd : AllDefined s (sort (fs.filter fun f => !f.isOne)) :=
    AllDefined.sort fun e he => h e (List.mem_of_mem_filter he)
  have hr : productReal s (sort (fs.filter fun f => !f.isOne)) = productReal s fs := by
    rw [productReal_sort, productReal_filter_not_isOne]
  rw [product]
  split
  next hnil =>
    rw [hnil] at hr
    exact ⟨defined_one, by rw [real_one, ← hr, productReal_nil]⟩
  next f gs hcons =>
    rw [hcons] at hd hr
    obtain ⟨hf, hgs⟩ := allDefined_cons.1 hd
    rw [← hr, productReal_cons]
    exact foldl_mul_spec hf hgs

/-! ## Coefficients -/

/-- An expression is its coefficient times the rest of it. -/
theorem split_spec {e : Expr} (h : e.Defined s) :
    (split e).2.Defined s ∧ e.real s = (split e).1 * (split e).2.real s := by
  induction e with
  | const c => exact ⟨defined_one, by simp [split]⟩
  | neg a ih =>
    obtain ⟨hd, hr⟩ := ih h
    exact ⟨hd, by simp only [split, real, hr, Rat.cast_neg]; ring⟩
  | mul a b iha ihb =>
    obtain ⟨da, ha⟩ := iha h.1
    obtain ⟨db, hb⟩ := ihb h.2
    obtain ⟨fa, pa⟩ := factors_spec da
    obtain ⟨fb, pb⟩ := factors_spec db
    obtain ⟨hd, hr⟩ := product_spec (fa.append fb)
    refine ⟨hd, ?_⟩
    simp only [split, real, hr, productReal_append, pa, pb, ha, hb, Rat.cast_mul]
    ring
  | _ => exact ⟨h, by simp [split]⟩

/-- Putting a coefficient in front multiplies by it. -/
theorem scaled_spec {base : Expr} (c : Rat) (h : base.Defined s) :
    (scaled c base).HasValue s (c * base.real s) := by
  rw [scaled]
  split
  next hc => exact ⟨defined_zero, by simp [hc]⟩
  split
  next hone => exact ⟨defined_const c, by simp [real_of_isOne hone]⟩
  split
  next hc => exact ⟨h, by simp [hc]⟩
  split
  next hc =>
    have hneg := keeps_neg s base h
    exact ⟨hneg.1, by rw [hneg.2, real, hc]; simp⟩
  next => exact ⟨⟨trivial, h⟩, rfl⟩

/-! ## Tables of exponents -/

/-- The product of the powers in a table. -/
noncomputable def Exponents.real (s : String → ℝ) (table : Exponents) : ℝ :=
  (table.map fun t => t.1.real s ^ t.2.num).prod

/-- Every base has a value, every exponent is an integer, and a base with a negative exponent is not
zero. -/
def Exponents.Valid (s : String → ℝ) (table : Exponents) : Prop :=
  ∀ t ∈ table, t.1.Defined s ∧ t.2.isInt = true ∧ (t.2.num < 0 → t.1.real s ≠ 0)

@[simp] theorem Exponents.real_nil : Exponents.real s [] = 1 := rfl

@[simp] theorem Exponents.real_cons (t : Expr × Rat) (table : Exponents) :
    Exponents.real s (t :: table) = t.1.real s ^ t.2.num * Exponents.real s table := by
  simp [Exponents.real]

theorem Exponents.valid_nil : Exponents.Valid s [] := by simp [Exponents.Valid]

theorem Exponents.valid_cons {t : Expr × Rat} {table : Exponents} :
    Exponents.Valid s (t :: table) ↔
      (t.1.Defined s ∧ t.2.isInt = true ∧ (t.2.num < 0 → t.1.real s ≠ 0)) ∧
        Exponents.Valid s table := by
  simp [Exponents.Valid]

/-- Integer rationals are the integers. -/
theorem eq_intCast_of_isInt {q : Rat} (h : q.isInt = true) : q = (q.num : Rat) :=
  Rat.eq_num_of_isInt h

/-- Exponents of one base add up, also when the base is zero, as long as zero has no negative
exponent. -/
theorem zpow_add_of_valid {x : ℝ} {d e : ℤ} (hd : d < 0 → x ≠ 0) (he : e < 0 → x ≠ 0) :
    x ^ (d + e) = x ^ d * x ^ e := by
  rcases eq_or_ne x 0 with rfl | hx
  · have hd' : 0 ≤ d := not_lt.1 fun h => hd h rfl
    have he' : 0 ≤ e := not_lt.1 fun h => he h rfl
    rcases hd'.eq_or_lt with rfl | hd'
    · simp
    · rw [zero_zpow _ (by omega), zero_zpow d (by omega), zero_mul]
  · exact zpow_add₀ hx d e

/-- Adding an exponent multiplies by the power. -/
theorem addExponent_spec {base : Expr} {n : ℤ} {table : Exponents} (hb : base.Defined s)
    (hn : n < 0 → base.real s ≠ 0) (h : Exponents.Valid s table) :
    Exponents.Valid s (addExponent base n table) ∧
      Exponents.real s (addExponent base n table) = base.real s ^ n * Exponents.real s table := by
  induction table with
  | nil =>
    have hv : Exponents.Valid s [(base, (n : Rat))] :=
      Exponents.valid_cons.2 ⟨⟨hb, by simp [Rat.isInt], hn⟩, Exponents.valid_nil⟩
    exact ⟨hv, by simp [addExponent]⟩
  | cons t table ih =>
    obtain ⟨b, d⟩ := t
    obtain ⟨⟨hd, hint, hneg⟩, htable⟩ := Exponents.valid_cons.1 h
    simp only [addExponent]
    split
    next heq =>
      subst heq
      obtain ⟨m, rfl⟩ : ∃ m : ℤ, d = m := ⟨d.num, eq_intCast_of_isInt hint⟩
      simp only [Rat.num_intCast] at hneg
      have hsum : (m : Rat) + (n : Rat) = ((m + n : ℤ) : Rat) := by push_cast; rfl
      rw [hsum, Exponents.valid_cons]
      refine ⟨⟨⟨hd, by simp [Rat.isInt], fun hlt => ?_⟩, htable⟩, ?_⟩
      · rw [Rat.num_intCast] at hlt
        rcases lt_or_ge m 0 with hm | hm
        · exact hneg hm
        · exact hn (by omega)
      · simp only [Exponents.real_cons, Rat.num_intCast]
        rw [zpow_add_of_valid hneg hn]
        ring
    next =>
      obtain ⟨hv, hr⟩ := ih htable
      refine ⟨Exponents.valid_cons.2 ⟨⟨hd, hint, hneg⟩, hv⟩, ?_⟩
      rw [Exponents.real_cons, hr, Exponents.real_cons]
      ring

/-- Adding the factors of an expression multiplies by its value, or divides by it when the sign is
`-1`. -/
theorem addFactors_spec {e : Expr} {sign : ℤ} {table : Exponents} (hsign : sign = 1 ∨ sign = -1)
    (he : e.Defined s) (hne : sign = -1 → e.real s ≠ 0) (h : Exponents.Valid s table) :
    Exponents.Valid s (addFactors sign e table) ∧
      Exponents.real s (addFactors sign e table) = e.real s ^ sign * Exponents.real s table := by
  have single : ∀ {f : Expr}, f.Defined s → (sign = -1 → f.real s ≠ 0) →
      Exponents.Valid s (addExponent f sign table) ∧
        Exponents.real s (addExponent f sign table) = f.real s ^ sign * Exponents.real s table :=
    fun hf hz => addExponent_spec hf (fun hneg => hz (by omega)) h
  induction e generalizing sign table with
  | mul a b iha ihb =>
    have hab : sign = -1 → a.real s ≠ 0 ∧ b.real s ≠ 0 := fun hs => mul_ne_zero_iff.1 (hne hs)
    obtain ⟨va, ra⟩ := iha hsign he.1 (fun hs => (hab hs).1) h single
    obtain ⟨vb, rb⟩ := ihb hsign he.2 (fun hs => (hab hs).2) va
      fun hf hz => addExponent_spec hf (fun hneg => hz (by omega)) va
    refine ⟨vb, ?_⟩
    rw [addFactors, rb, ra, real, mul_zpow]
    ring
  | div a b iha ihb =>
    obtain ⟨da, db, hb⟩ := he
    have ha : sign = -1 → a.real s ≠ 0 := fun hs hz => hne hs (by rw [real, hz, zero_div])
    obtain ⟨va, ra⟩ := iha hsign da ha h single
    have hopposite : -sign = 1 ∨ -sign = -1 := by omega
    obtain ⟨vb, rb⟩ := ihb hopposite db (fun _ => hb) va
      fun hf hz => addExponent_spec hf (fun hneg => hz (by omega)) va
    rw [Int.cast_neg] at vb rb
    refine ⟨vb, ?_⟩
    rw [addFactors, rb, ra, real, div_zpow, zpow_neg]
    ring
  | pow b e _ _ =>
    cases e with
    | const m =>
      simp only [addFactors]
      split
      next hint =>
        obtain ⟨k, rfl⟩ : ∃ k : ℤ, m = k := ⟨m.num, eq_intCast_of_isInt hint⟩
        obtain ⟨db, hk⟩ := defined_pow_const_int_iff.1 he
        rw [real_pow_const_int] at hne ⊢
        have hneg : k * sign < 0 → b.real s ≠ 0 := by
          rcases hsign with rfl | rfl
          · intro hlt
            exact hk (by omega)
          · intro hlt hz
            exact hne rfl (by rw [hz, zero_zpow k (by omega)])
        have hcast : (k : Rat) * (sign : Rat) = ((k * sign : ℤ) : Rat) := by push_cast; rfl
        rw [hcast, ← zpow_mul]
        exact addExponent_spec db hneg h
      next => exact single he hne
    | _ => exact single he hne
  | const c =>
    simp only [addFactors]
    split
    next hone => exact ⟨h, by rw [real_of_isOne hone, one_zpow, one_mul]⟩
    next => exact single he hne
  | _ => exact single he hne

/-- A base with a nonzero exponent has the value of the power. -/
theorem power_spec {base : Expr} {n : ℤ} (hb : base.Defined s) (hn : n < 0 → base.real s ≠ 0) :
    (power base n).HasValue s (base.real s ^ n) := by
  rw [power]
  split
  next hone =>
    obtain rfl : n = 1 := by exact_mod_cast hone
    exact ⟨hb, (zpow_one _).symm⟩
  next => exact ⟨defined_pow_const_int_iff.2 ⟨hb, hn⟩, real_pow_const_int n⟩

/-- The powers above the bar. -/
def numerators (table : Exponents) : List Expr :=
  (table.filter fun t => 0 < t.2).map fun t => power t.1 t.2

/-- The powers below the bar. -/
def denominators (table : Exponents) : List Expr :=
  (table.filter fun t => t.2 < 0).map fun t => power t.1 (-t.2)

theorem collectPowers_eq (e : Expr) :
    collectPowers e =
      if (denominators (addFactors 1 e [])).isEmpty then product (numerators (addFactors 1 e []))
      else .div (product (numerators (addFactors 1 e [])))
        (product (denominators (addFactors 1 e []))) := rfl

/-- A valid table is the quotient of its two sides, and the lower one is not zero. -/
theorem Exponents.Valid.sides {table : Exponents} (h : Exponents.Valid s table) :
    AllDefined s (numerators table) ∧ AllDefined s (denominators table) ∧
      productReal s (denominators table) ≠ 0 ∧
      Exponents.real s table =
        productReal s (numerators table) / productReal s (denominators table) := by
  induction table with
  | nil => simp [numerators, denominators]
  | cons t table ih =>
    obtain ⟨b, e⟩ := t
    obtain ⟨⟨hb, hint, hneg⟩, htable⟩ := Exponents.valid_cons.1 h
    obtain ⟨hn, hd, hne, hr⟩ := ih htable
    obtain ⟨k, rfl⟩ : ∃ k : ℤ, e = k := ⟨e.num, eq_intCast_of_isInt hint⟩
    simp only [Rat.num_intCast] at hneg
    rw [Exponents.real_cons, hr]
    simp only [Rat.num_intCast]
    rcases lt_trichotomy k 0 with hk | rfl | hk
    · obtain ⟨pd, pr⟩ := power_spec (n := -k) hb fun _ => hneg hk
      have hnum : numerators ((b, (k : Rat)) :: table) = numerators table := by
        simp [numerators, hk.le]
      have hden : denominators ((b, (k : Rat)) :: table) =
          power b ((-k : ℤ) : Rat) :: denominators table := by
        simp [denominators, hk]
      rw [hnum, hden, productReal_cons, allDefined_cons, pr, zpow_neg]
      have hpow : b.real s ^ k ≠ 0 := zpow_ne_zero k (hneg hk)
      refine ⟨hn, ⟨pd, hd⟩, mul_ne_zero (inv_ne_zero hpow) hne, ?_⟩
      field_simp
    · simpa [numerators, denominators] using ⟨hn, hd, hne⟩
    · obtain ⟨pd, pr⟩ := power_spec (n := k) hb fun hlt => absurd hk (by omega)
      have hnum : numerators ((b, (k : Rat)) :: table) = power b k :: numerators table := by
        simp [numerators, hk]
      have hden : denominators ((b, (k : Rat)) :: table) = denominators table := by
        simp [denominators, hk.le]
      rw [hnum, hden, productReal_cons, allDefined_cons, pr]
      exact ⟨⟨pd, hn⟩, hd, hne, by ring⟩

/-- Adding up the exponents of equal factors keeps the value. -/
theorem keeps_collectPowers (s : String → ℝ) (e : Expr) : Keeps s e (collectPowers e) := by
  intro he
  have hsign : (1 : ℤ) = 1 ∨ (1 : ℤ) = -1 := .inl rfl
  obtain ⟨hv, hr⟩ := addFactors_spec hsign he (by simp) Exponents.valid_nil
  rw [Int.cast_one, zpow_one, Exponents.real_nil, mul_one] at hr
  rw [Int.cast_one] at hv
  obtain ⟨hn, hd, hne, hq⟩ := hv.sides
  obtain ⟨dn, rn⟩ := product_spec hn
  obtain ⟨dd, rd⟩ := product_spec hd
  rw [collectPowers_eq]
  split
  next hempty =>
    rw [List.isEmpty_iff] at hempty
    rw [hempty, productReal_nil, div_one] at hq
    exact ⟨dn, by rw [rn, ← hq, hr]⟩
  next => exact ⟨⟨dn, dd, rd ▸ hne⟩, by rw [real, rn, rd, ← hq, hr]⟩

end MarketAlgebra.Simplify
