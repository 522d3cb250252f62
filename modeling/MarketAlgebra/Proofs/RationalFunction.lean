import MarketAlgebra.Proofs.Poly.Expression
import MarketAlgebra.RationalFunction

/-!
# Lowest terms

A rational function is in lowest terms when its two polynomials have no common factor and the
denominator is monic (`RationalFunction.Lowest`).  Then its parts are determined by the function
(`Lowest.eq_of_mul_eq`).  Reduction gives lowest terms and keeps the function (`reduce_spec`).

`Expands` says how an expression expands to a rational function, with one rule for each constructor,
and `read` follows these rules (`read_eq_ok_iff`).  So the function of an expression is in lowest
terms (`Expands.lowest`), and its denominator does not vanish at a root of the numerator.  An
expression that is read as a polynomial is read as the same rational function
(`ofExpr?_eq_ofPoly`).

The arithmetic of two functions is that of the field of quotients as long as no exponent of a
product of their parts wraps around (`Exact`).  Whether one can is told from the sizes of the parts,
which `Expr.degreeBound` bounds (`Expands.size_le`).
-/

namespace MarketAlgebra

/-- A computation in two steps succeeds when both do. -/
theorem bind_eq_ok_iff {α β ε : Type} {a : Except ε α} {g : α → Except ε β} {b : β} :
    a >>= g = .ok b ↔ ∃ c, a = .ok c ∧ g c = .ok b := by
  cases a with
  | error e =>
    constructor
    · intro h
      cases h
    · rintro ⟨c, h, -⟩
      cases h
  | ok c => exact ⟨fun h => ⟨c, rfl, h⟩, fun ⟨_, rfl, h⟩ => h⟩

theorem toOption_eq_some_iff {α ε : Type} {a : Except ε α} {b : α} :
    a.toOption = some b ↔ a = .ok b := by
  cases a with
  | error e => exact iff_of_false nofun nofun
  | ok c => exact ⟨fun h => congrArg _ (Option.some.inj h), fun h => congrArg _ (Except.ok.inj h)⟩

namespace RationalFunction

open Polynomial

/-- The two polynomials have no common factor, and the denominator is monic. -/
structure Lowest (f : RationalFunction) : Prop where
  isCoprime : IsCoprime f.numer.toPolynomial f.denom.toPolynomial
  monic : f.denom.toPolynomial.Monic

section

variable {f g : RationalFunction}

/-! ## Lowest terms are unique -/

/-- Functions with the same two polynomials are equal. -/
theorem eq_of_toPolynomial (hnumer : f.numer.toPolynomial = g.numer.toPolynomial)
    (hdenom : f.denom.toPolynomial = g.denom.toPolynomial) : f = g := by
  cases f
  cases g
  simp only [mk.injEq]
  exact ⟨Poly.toPolynomial_injective hnumer, Poly.toPolynomial_injective hdenom⟩

theorem Lowest.denom_ne_zero (h : f.Lowest) : f.denom.toPolynomial ≠ 0 := h.monic.ne_zero

/-- In lowest terms, equal functions have equal parts. -/
theorem Lowest.eq_of_mul_eq (hf : f.Lowest) (hg : g.Lowest)
    (h : f.numer.toPolynomial * g.denom.toPolynomial =
      g.numer.toPolynomial * f.denom.toPolynomial) : f = g := by
  have hfg : f.denom.toPolynomial ∣ g.denom.toPolynomial :=
    hf.isCoprime.symm.dvd_of_dvd_mul_left (h ▸ Dvd.intro_left _ rfl)
  have hgf : g.denom.toPolynomial ∣ f.denom.toPolynomial :=
    hg.isCoprime.symm.dvd_of_dvd_mul_left (h ▸ Dvd.intro_left _ rfl)
  have hdenom : f.denom.toPolynomial = g.denom.toPolynomial :=
    eq_of_monic_of_associated hf.monic hg.monic (associated_of_dvd_dvd hfg hgf)
  rw [hdenom] at h
  exact eq_of_toPolynomial (mul_right_cancel₀ hg.denom_ne_zero h) hdenom

/-- The denominator does not vanish at a root of the numerator. -/
theorem eval_denom_ne_zero (h : IsCoprime f.numer.toPolynomial f.denom.toPolynomial) {a : ℝ}
    (ha : f.numer.real.eval a = 0) : f.denom.real.eval a ≠ 0 := by
  intro hz
  obtain ⟨u, v, huv⟩ := h.map (mapRingHom (algebraMap ℚ ℝ))
  have heval := congrArg (Polynomial.eval a) huv
  rw [eval_add, eval_mul, eval_mul, coe_mapRingHom] at heval
  change _ * f.numer.real.eval a + _ * f.denom.real.eval a = _ at heval
  rw [ha, hz, mul_zero, mul_zero, add_zero, eval_one] at heval
  exact zero_ne_one heval

/-! ## Reduction -/

/-- A polynomial is in lowest terms. -/
theorem lowest_ofPoly (p : Poly) : (ofPoly p).Lowest := by
  constructor <;> rw [ofPoly, Poly.toPolynomial_one]
  · exact isCoprime_one_right
  · exact monic_one

/-- Without the greatest common divisor no common factor is left. -/
theorem isCoprime_of_mul_gcd {p q m n : Poly} (hp : p.toPolynomial ≠ 0)
    (hm : p.toPolynomial = m.toPolynomial * (Poly.gcd p q).toPolynomial)
    (hn : q.toPolynomial = n.toPolynomial * (Poly.gcd p q).toPolynomial) :
    IsCoprime m.toPolynomial n.toPolynomial := by
  have hg := Poly.gcd_ne_zero hp q
  refine IsRelPrime.isCoprime fun c hcm hcn => ?_
  have hdvd : c * (Poly.gcd p q).toPolynomial ∣ (Poly.gcd p q).toPolynomial := by
    rw [Poly.dvd_gcd_iff]
    constructor
    · conv_rhs => rw [hm]
      exact mul_dvd_mul_right hcm _
    · conv_rhs => rw [hn]
      exact mul_dvd_mul_right hcn _
  have hunit : c * (Poly.gcd p q).toPolynomial ∣ 1 * (Poly.gcd p q).toPolynomial := by
    rwa [one_mul]
  exact isUnit_of_dvd_one ((mul_dvd_mul_iff_right hg).1 hunit)

/-- There is something to divide by, or nothing to divide. -/
def Proper (f : RationalFunction) : Prop :=
  f.denom.toPolynomial = 0 → f.numer.toPolynomial = 0

theorem proper_of_denom_ne_zero (h : f.denom.toPolynomial ≠ 0) : f.Proper :=
  fun hzero => absurd hzero h

theorem settle_eq_ok_iff : f.settle = .ok g ↔ f.Proper ∧ f.reduce = g := by
  rw [settle, Proper, ← Poly.isZero_iff, ← Poly.isZero_iff]
  split
  case isTrue h =>
    rw [Bool.and_eq_true, Bool.not_eq_true'] at h
    exact iff_of_false nofun fun hf => Bool.false_ne_true (h.2.symm.trans (hf.1 h.1))
  case isFalse h =>
    rw [Bool.and_eq_true, Bool.not_eq_true', not_and, Bool.not_eq_false] at h
    exact ⟨fun hg => ⟨h, Except.ok.inj hg⟩, fun hg => congrArg _ hg.2⟩

/-- Reduction gives lowest terms and keeps the function. -/
theorem reduce_spec (h : f.Proper) :
    f.reduce.Lowest ∧ f.reduce.numer.toPolynomial * f.denom.toPolynomial =
      f.numer.toPolynomial * f.reduce.denom.toPolynomial := by
  rw [reduce]
  split
  case isTrue hzero =>
    refine ⟨lowest_ofPoly .zero, ?_⟩
    rw [Poly.isZero_iff.1 hzero, ofPoly, Poly.toPolynomial_zero, zero_mul, zero_mul]
  case isFalse hzero =>
    have hp : f.numer.toPolynomial ≠ 0 := mt Poly.isZero_iff.2 hzero
    have hg := Poly.gcd_ne_zero hp f.denom
    obtain ⟨m, hm, hnumer⟩ := Poly.divExact?_of_dvd hg (Poly.gcd_dvd_left f.numer f.denom)
    obtain ⟨n, hn, hdenom⟩ := Poly.divExact?_of_dvd hg (Poly.gcd_dvd_right f.numer f.denom)
    have hne : n.toPolynomial ≠ 0 := by
      intro hz
      rw [hz, zero_mul] at hdenom
      exact hp (h hdenom)
    have hlead : n.toPolynomial.leadingCoeff ≠ 0 := leadingCoeff_ne_zero.2 hne
    have hunit : IsUnit (C (1 / n.leading)) := by
      rw [isUnit_C, isUnit_iff_ne_zero, Poly.leading_eq]
      exact one_div_ne_zero hlead
    simp only [hm, hn, Option.getD_some]
    refine ⟨⟨?_, ?_⟩, ?_⟩
    · simp only [Poly.toPolynomial_scale]
      rw [isCoprime_mul_unit_left hunit]
      exact isCoprime_of_mul_gcd hp hnumer hdenom
    · simp only [Poly.toPolynomial_scale, Poly.leading_eq]
      rw [Monic, leadingCoeff_mul, leadingCoeff_C, one_div_mul_cancel hlead]
    · simp only [Poly.toPolynomial_scale]
      conv_lhs => rw [hdenom]
      conv_rhs => rw [hnumer]
      ring

/-- A function that is reduced to lowest terms is found by its values. -/
theorem Lowest.eq_reduce (hf : f.Lowest) (hg : g.denom.toPolynomial ≠ 0)
    (h : f.numer.toPolynomial * g.denom.toPolynomial =
      g.numer.toPolynomial * f.denom.toPolynomial) : f = g.reduce := by
  obtain ⟨hlowest, hreduce⟩ := reduce_spec (proper_of_denom_ne_zero hg)
  refine hf.eq_of_mul_eq hlowest (mul_right_cancel₀ hg ?_)
  calc f.numer.toPolynomial * g.reduce.denom.toPolynomial * g.denom.toPolynomial
      = f.numer.toPolynomial * g.denom.toPolynomial * g.reduce.denom.toPolynomial := by ring
    _ = g.numer.toPolynomial * g.reduce.denom.toPolynomial * f.denom.toPolynomial := by
        rw [h]; ring
    _ = g.reduce.numer.toPolynomial * f.denom.toPolynomial * g.denom.toPolynomial := by
        rw [← hreduce]; ring

/-- A polynomial is reduced. -/
theorem reduce_ofPoly (p : Poly) : (ofPoly p).reduce = ofPoly p :=
  ((lowest_ofPoly p).eq_reduce (lowest_ofPoly p).denom_ne_zero rfl).symm

/-- A quotient by a constant is reduced to a polynomial. -/
theorem reduce_of_denom_eq_const {c : Rat} (hc : c ≠ 0) (h : f.denom = .const c) :
    f.reduce = ofPoly (.scale (1 / c) f.numer) := by
  have hdenom : f.denom.toPolynomial = C c := by rw [h, Poly.toPolynomial_const]
  refine ((lowest_ofPoly _).eq_reduce (by rw [hdenom]; exact C_ne_zero.2 hc) ?_).symm
  rw [hdenom, ofPoly, Poly.toPolynomial_scale, Poly.toPolynomial_one, mul_right_comm, ← C_mul,
    one_div_mul_cancel hc, C_1, one_mul, mul_one]

/-! ## Reciprocals and powers -/

/-- The function with its parts exchanged, which is the reciprocal unless the function is zero. -/
def swap (f : RationalFunction) : RationalFunction := ⟨f.denom, f.numer⟩

theorem inv_eq_ok_iff : f.inv = .ok g ↔ f.numer.toPolynomial ≠ 0 ∧ f.swap = g := by
  rw [inv, Ne, ← Poly.isZero_iff]
  split
  case isTrue h => exact iff_of_false nofun fun hg => hg.1 h
  case isFalse h => exact ⟨fun hg => ⟨h, Except.ok.inj hg⟩, fun hg => congrArg _ hg.2⟩

/-- The base of a power with an integer exponent, which is inverted for a negative one. -/
theorem base_eq_ok_iff {k : ℤ} : (if 0 ≤ k then .ok f else f.inv) = .ok g ↔
    (k < 0 → f.numer.toPolynomial ≠ 0) ∧ (if 0 ≤ k then f else f.swap) = g := by
  split
  case isTrue hk =>
    constructor
    · exact fun h => ⟨fun hneg => absurd hk (not_le.2 hneg), Except.ok.inj h⟩
    · exact fun h => congrArg _ h.2
  case isFalse hk => rw [inv_eq_ok_iff, forall_prop_of_true (not_le.1 hk)]

/-- A power with an integer exponent. -/
def zpow (f : RationalFunction) (k : ℤ) : RationalFunction :=
  (if 0 ≤ k then f else f.swap).pow k.natAbs

end

/-! ## Sizes -/

section

variable {f g : RationalFunction} {m n : ℕ}

/-- One more than the largest degree. -/
def size (f : RationalFunction) : ℕ := max f.numer.size f.denom.size

theorem size_le_iff : f.size ≤ n ↔ f.numer.size ≤ n ∧ f.denom.size ≤ n := max_le_iff

theorem numer_size_le (f : RationalFunction) : f.numer.size ≤ f.size := le_max_left _ _

theorem denom_size_le (f : RationalFunction) : f.denom.size ≤ f.size := le_max_right _ _

theorem size_swap (f : RationalFunction) : f.swap.size = f.size := max_comm _ _

theorem size_ofPoly_le {p : Poly} (h : p.size ≤ n + 1) : (ofPoly p).size ≤ n + 1 :=
  size_le_iff.2 ⟨h, (Poly.size_const_le 1).trans (Nat.le_add_left 1 n)⟩

theorem mul_size_le {p q : Poly} (hp : p.size ≤ m + 1) (hq : q.size ≤ n + 1) :
    (p * q).size ≤ m + n + 1 :=
  (Poly.size_mul_le p q).trans (by omega)

theorem size_add_le (hf : f.size ≤ m + 1) (hg : g.size ≤ n + 1) :
    (f.add g).size ≤ m + n + 1 := by
  obtain ⟨hfn, hfd⟩ := size_le_iff.1 hf
  obtain ⟨hgn, hgd⟩ := size_le_iff.1 hg
  refine size_le_iff.2 ⟨Poly.size_add_le (mul_size_le hfn hgd) ?_, mul_size_le hfd hgd⟩
  rw [Nat.add_comm m]
  exact mul_size_le hgn hfd

theorem size_sub_le (hf : f.size ≤ m + 1) (hg : g.size ≤ n + 1) :
    (f.sub g).size ≤ m + n + 1 := by
  obtain ⟨hfn, hfd⟩ := size_le_iff.1 hf
  obtain ⟨hgn, hgd⟩ := size_le_iff.1 hg
  refine size_le_iff.2 ⟨Poly.size_sub_le (mul_size_le hfn hgd) ?_, mul_size_le hfd hgd⟩
  rw [Nat.add_comm m]
  exact mul_size_le hgn hfd

theorem size_mul_le (hf : f.size ≤ m + 1) (hg : g.size ≤ n + 1) :
    (f.mul g).size ≤ m + n + 1 := by
  obtain ⟨hfn, hfd⟩ := size_le_iff.1 hf
  obtain ⟨hgn, hgd⟩ := size_le_iff.1 hg
  exact size_le_iff.2 ⟨mul_size_le hfn hgn, mul_size_le hfd hgd⟩

theorem size_neg_le (f : RationalFunction) : f.neg.size ≤ f.size :=
  size_le_iff.2 ⟨(Poly.size_neg_le _).trans f.numer_size_le, f.denom_size_le⟩

theorem size_zpow_le (hf : f.size ≤ m + 1) (k : ℤ) :
    (f.zpow k).size ≤ max 1 k.natAbs * m + 1 := by
  have hpow (p : Poly) (hp : p.size ≤ m + 1) :
      (p.pow k.natAbs).size ≤ max 1 k.natAbs * m + 1 :=
    (Poly.size_pow_le p k.natAbs).trans (Nat.succ_le_succ
      (Nat.mul_le_mul (le_max_right 1 _) (Nat.sub_le_of_le_add hp)))
  have hbase : (if 0 ≤ k then f else f.swap).size ≤ m + 1 := by
    split
    case isTrue => exact hf
    case isFalse => rwa [size_swap]
  obtain ⟨hn, hd⟩ := size_le_iff.1 hbase
  exact size_le_iff.2 ⟨hpow _ hn, hpow _ hd⟩

/-- Reduction makes no degree larger. -/
theorem size_reduce_le (hf : f.size ≤ n + 1) : f.reduce.size ≤ n + 1 := by
  obtain ⟨hn, hd⟩ := size_le_iff.1 hf
  have hscaled (p q : Poly) (c : Rat) (hp : p.size ≤ n + 1) :
      (Poly.scale c ((p.divExact? q).getD p)).size ≤ n + 1 := by
    refine (Poly.size_timesTerm_le 0 c _).trans ?_
    rw [Nat.add_zero]
    cases h : p.divExact? q with
    | none => exact hp
    | some r => exact (Poly.size_le_of_divExact? h).trans hp
  rw [reduce]
  split
  case isTrue => exact size_ofPoly_le (Nat.zero_le _)
  case isFalse => exact size_le_iff.2 ⟨hscaled _ _ _ hn, hscaled _ _ _ hd⟩

/-! ## Exact arithmetic -/

/-- The products of the parts of two functions are their products in the ring. -/
structure Exact (f g : RationalFunction) : Prop where
  numer_numer : (f.numer * g.numer).toPolynomial = f.numer.toPolynomial * g.numer.toPolynomial
  numer_denom : (f.numer * g.denom).toPolynomial = f.numer.toPolynomial * g.denom.toPolynomial
  denom_numer : (g.numer * f.denom).toPolynomial = g.numer.toPolynomial * f.denom.toPolynomial
  denom_denom : (f.denom * g.denom).toPolynomial = f.denom.toPolynomial * g.denom.toPolynomial

/-- Where the degrees of the products are words, they are exact. -/
theorem exact_of_size_le (h : f.size + g.size ≤ Poly.wordSize + 1) : Exact f g := by
  have hfn := f.numer_size_le
  have hfd := f.denom_size_le
  have hgn := g.numer_size_le
  have hgd := g.denom_size_le
  constructor <;> exact Poly.toPolynomial_mul_of_size_le (by omega)

/-- The denominator of a product does not vanish by itself. -/
theorem Exact.denom_mul_ne_zero (h : Exact f g) (hf : f.denom.toPolynomial ≠ 0)
    (hg : g.denom.toPolynomial ≠ 0) : (f.denom * g.denom).toPolynomial ≠ 0 := by
  rw [h.denom_denom]
  exact mul_ne_zero hf hg

/-- The parts of a power are powers of the parts. -/
structure ExactPower (f : RationalFunction) (n : ℕ) : Prop where
  numer : (f.numer.pow n).toPolynomial = f.numer.toPolynomial ^ n
  denom : (f.denom.pow n).toPolynomial = f.denom.toPolynomial ^ n

theorem exactPower_of_size_le (hf : f.size ≤ m + 1) (h : max 1 n * m < Poly.wordSize) :
    ExactPower f n :=
  ⟨Poly.toPolynomial_pow_of_lt (Poly.mul_size_lt (f.numer_size_le.trans hf) h),
    Poly.toPolynomial_pow_of_lt (Poly.mul_size_lt (f.denom_size_le.trans hf) h)⟩

theorem ExactPower.swap (h : ExactPower f n) : ExactPower f.swap n := ⟨h.denom, h.numer⟩

/-- The denominator of a power does not vanish by itself. -/
theorem ExactPower.denom_zpow_ne_zero {k : ℤ} (h : ExactPower f k.natAbs)
    (hd : f.denom.toPolynomial ≠ 0) (hn : k < 0 → f.numer.toPolynomial ≠ 0) :
    (f.zpow k).denom.toPolynomial ≠ 0 := by
  rw [zpow, RationalFunction.pow]
  split
  case isTrue =>
    rw [h.denom]
    exact pow_ne_zero _ hd
  case isFalse hneg =>
    rw [h.swap.denom]
    exact pow_ne_zero _ (hn (not_le.1 hneg))

end

/-! ## From expressions -/

/-- How an expression expands to a rational function. -/
inductive Expands (x : String) : Expr → RationalFunction → Prop
  | var : Expands x (.var x) (ofPoly .x)
  | const (c : Rat) : Expands x (.const c) (ofPoly (.const c))
  | add {a b : Expr} {f g : RationalFunction} :
      Expands x a f → Expands x b g → (f.add g).Proper → Expands x (.add a b) (f.add g).reduce
  | sub {a b : Expr} {f g : RationalFunction} :
      Expands x a f → Expands x b g → (f.sub g).Proper → Expands x (.sub a b) (f.sub g).reduce
  | mul {a b : Expr} {f g : RationalFunction} :
      Expands x a f → Expands x b g → (f.mul g).Proper → Expands x (.mul a b) (f.mul g).reduce
  | div {a b : Expr} {f g : RationalFunction} :
      Expands x a f → Expands x b g → g.numer.toPolynomial ≠ 0 → (f.mul g.swap).Proper →
      Expands x (.div a b) (f.mul g.swap).reduce
  | neg {a : Expr} {f : RationalFunction} : Expands x a f → Expands x (.neg a) f.neg.reduce
  | pow {a b : Expr} {f : RationalFunction} {k : ℤ} :
      Expands x a f → b.integerExponent? = some k → k.natAbs ≤ expansionLimit →
      (k < 0 → f.numer.toPolynomial ≠ 0) → (f.zpow k).Proper →
      Expands x (.pow a b) (f.zpow k).reduce

variable {f g : RationalFunction} {p : Poly} {x : String} {e a b : Expr}

/-- The function of an expression is in lowest terms. -/
theorem Expands.lowest (h : Expands x e f) : f.Lowest := by
  induction h with
  | var => exact lowest_ofPoly .x
  | const c => exact lowest_ofPoly (.const c)
  | add _ _ hproper | sub _ _ hproper | mul _ _ hproper | div _ _ _ hproper
  | pow _ _ _ _ hproper => exact (reduce_spec hproper).1
  | neg _ ih =>
    refine (reduce_spec (proper_of_denom_ne_zero ?_)).1
    exact ih.denom_ne_zero

/-- An expression is read as the function that it expands to. -/
theorem read_eq_ok_iff : read x e = .ok f ↔ Expands x e f := by
  constructor
  · intro h
    induction e generalizing f with
    | var name =>
      rw [read] at h
      split at h
      case isTrue hname =>
        obtain rfl := hname
        obtain rfl := Except.ok.inj h
        exact .var
      case isFalse => cases h
    | const c =>
      obtain rfl := Except.ok.inj h
      exact .const c
    | add a b iha ihb =>
      simp only [read, bind_eq_ok_iff, settle_eq_ok_iff] at h
      obtain ⟨f, ha, g, hb, hproper, rfl⟩ := h
      exact .add (iha ha) (ihb hb) hproper
    | sub a b iha ihb =>
      simp only [read, bind_eq_ok_iff, settle_eq_ok_iff] at h
      obtain ⟨f, ha, g, hb, hproper, rfl⟩ := h
      exact .sub (iha ha) (ihb hb) hproper
    | mul a b iha ihb =>
      simp only [read, bind_eq_ok_iff, settle_eq_ok_iff] at h
      obtain ⟨f, ha, g, hb, hproper, rfl⟩ := h
      exact .mul (iha ha) (ihb hb) hproper
    | div a b iha ihb =>
      simp only [read, bind_eq_ok_iff, inv_eq_ok_iff, settle_eq_ok_iff] at h
      obtain ⟨f, ha, g, hb, _, ⟨hne, rfl⟩, hproper, rfl⟩ := h
      exact .div (iha ha) (ihb hb) hne hproper
    | neg a ih =>
      simp only [read, bind_eq_ok_iff, settle_eq_ok_iff] at h
      obtain ⟨f, ha, -, rfl⟩ := h
      exact .neg (ih ha)
    | pow a b iha _ =>
      rw [read] at h
      split at h
      case h_1 => cases h
      case h_2 k hk =>
        split at h
        case isTrue => cases h
        case isFalse hlimit =>
          simp only [bind_eq_ok_iff, base_eq_ok_iff, settle_eq_ok_iff] at h
          obtain ⟨f, ha, _, ⟨hne, rfl⟩, hproper, rfl⟩ := h
          exact .pow (iha ha) hk (not_lt.1 hlimit) hne hproper
    | call f a => cases h
  · intro h
    induction h with
    | var => exact if_pos rfl
    | const c => rfl
    | add _ _ hproper iha ihb | sub _ _ hproper iha ihb | mul _ _ hproper iha ihb =>
      simp only [read, bind_eq_ok_iff]
      exact ⟨_, iha, _, ihb, settle_eq_ok_iff.2 ⟨hproper, rfl⟩⟩
    | div _ _ hne hproper iha ihb =>
      simp only [read, bind_eq_ok_iff]
      exact ⟨_, iha, _, ihb, _, inv_eq_ok_iff.2 ⟨hne, rfl⟩, settle_eq_ok_iff.2 ⟨hproper, rfl⟩⟩
    | neg ha ih =>
      simp only [read, bind_eq_ok_iff]
      exact ⟨_, ih, settle_eq_ok_iff.2 ⟨proper_of_denom_ne_zero ha.lowest.denom_ne_zero, rfl⟩⟩
    | @pow a b f k _ hk hlimit hne hproper ih =>
      simp only [read, hk, if_neg (not_lt.2 hlimit), bind_eq_ok_iff]
      exact ⟨f, ih, _, base_eq_ok_iff.2 ⟨hne, rfl⟩, settle_eq_ok_iff.2 ⟨hproper, rfl⟩⟩

theorem ofExpr?_eq_some_iff : ofExpr? x e = some f ↔ Expands x e f :=
  toOption_eq_some_iff.trans read_eq_ok_iff

theorem lowest_ofExpr? (h : ofExpr? x e = some f) : f.Lowest :=
  (ofExpr?_eq_some_iff.1 h).lowest

/-- The degrees of a function that an expression expands to, whether or not exponents wrap
around. -/
theorem Expands.size_le (h : Expands x e f) : f.size ≤ e.degreeBound + 1 := by
  induction h with
  | var => exact size_ofPoly_le Poly.size_x_le
  | const c => exact size_ofPoly_le (Poly.size_const_le c)
  | add _ _ _ iha ihb => exact size_reduce_le (size_add_le iha ihb)
  | sub _ _ _ iha ihb => exact size_reduce_le (size_sub_le iha ihb)
  | mul _ _ _ iha ihb => exact size_reduce_le (size_mul_le iha ihb)
  | div _ _ _ _ iha ihb =>
    rw [← size_swap] at ihb
    exact size_reduce_le (size_mul_le iha ihb)
  | neg _ ih => exact size_reduce_le ((size_neg_le _).trans ih)
  | pow _ hk _ _ _ ih =>
    rw [Expr.degreeBound_pow hk]
    exact size_reduce_le (size_zpow_le ih _)

/-! ## Degrees that are words -/

section

variable (ha : Expands x a f) (hb : Expands x b g)

include ha

theorem Expands.exactPower {k : ℤ} (hk : b.integerExponent? = some k)
    (h : (Expr.pow a b).degreeBound < Poly.wordSize) : ExactPower f k.natAbs := by
  rw [Expr.degreeBound_pow hk] at h
  exact exactPower_of_size_le ha.size_le h

theorem Expands.pow_of_lt {k : ℤ} (hk : b.integerExponent? = some k)
    (hlimit : k.natAbs ≤ expansionLimit) (hne : k < 0 → f.numer.toPolynomial ≠ 0)
    (h : (Expr.pow a b).degreeBound < Poly.wordSize) :
    Expands x (.pow a b) (f.zpow k).reduce := by
  refine .pow ha hk hlimit hne (proper_of_denom_ne_zero ?_)
  exact (ha.exactPower hk h).denom_zpow_ne_zero ha.lowest.denom_ne_zero hne

include hb

variable (h : a.degreeBound + b.degreeBound < Poly.wordSize)

include h

/-- While the degrees are words, the arithmetic of two functions that are read is exact. -/
theorem Expands.exact : Exact f g ∧ Exact f g.swap := by
  have hf := ha.size_le
  have hg := hb.size_le
  exact ⟨exact_of_size_le (by omega), exact_of_size_le (by rw [size_swap]; omega)⟩

/-- So there is something to divide by. -/
theorem Expands.denom_mul_ne_zero : (f.denom * g.denom).toPolynomial ≠ 0 :=
  (ha.exact hb h).1.denom_mul_ne_zero ha.lowest.denom_ne_zero hb.lowest.denom_ne_zero

theorem Expands.add_of_lt : Expands x (.add a b) (f.add g).reduce :=
  .add ha hb (proper_of_denom_ne_zero (ha.denom_mul_ne_zero hb h))

theorem Expands.sub_of_lt : Expands x (.sub a b) (f.sub g).reduce :=
  .sub ha hb (proper_of_denom_ne_zero (ha.denom_mul_ne_zero hb h))

theorem Expands.mul_of_lt : Expands x (.mul a b) (f.mul g).reduce :=
  .mul ha hb (proper_of_denom_ne_zero (ha.denom_mul_ne_zero hb h))

theorem Expands.div_of_lt (hne : g.numer.toPolynomial ≠ 0) :
    Expands x (.div a b) (f.mul g.swap).reduce :=
  .div ha hb hne (proper_of_denom_ne_zero
    ((ha.exact hb h).2.denom_mul_ne_zero ha.lowest.denom_ne_zero hne))

end

theorem ofPoly_add (p q : Poly) : (ofPoly p).add (ofPoly q) = ofPoly (p + q) := by
  simp only [RationalFunction.add, ofPoly, Poly.mul_one_eq]

theorem ofPoly_sub (p q : Poly) : (ofPoly p).sub (ofPoly q) = ofPoly (p - q) := by
  simp only [RationalFunction.sub, ofPoly, Poly.mul_one_eq]

theorem ofPoly_mul (p q : Poly) : (ofPoly p).mul (ofPoly q) = ofPoly (p * q) := by
  simp only [RationalFunction.mul, ofPoly, Poly.mul_one_eq]

theorem ofPoly_zpow (p : Poly) (n : ℕ) : (ofPoly p).zpow (n : ℤ) = ofPoly (p.pow n) := by
  rw [zpow, if_pos (Int.natCast_nonneg n), Int.natAbs_natCast]
  simp only [RationalFunction.pow, ofPoly, Poly.one_pow_eq]

theorem proper_ofPoly (p : Poly) : (ofPoly p).Proper :=
  proper_of_denom_ne_zero (lowest_ofPoly p).denom_ne_zero

/-- An expression that expands to a polynomial expands to the same rational function. -/
theorem expands_ofPoly (h : Poly.Expands x e p) : Expands x e (ofPoly p) := by
  induction h with
  | var => exact .var
  | const c => exact .const c
  | @add a b p q _ _ iha ihb =>
    have hadd := Expands.add iha ihb
    rw [ofPoly_add, reduce_ofPoly] at hadd
    exact hadd (proper_ofPoly _)
  | @sub a b p q _ _ iha ihb =>
    have hsub := Expands.sub iha ihb
    rw [ofPoly_sub, reduce_ofPoly] at hsub
    exact hsub (proper_ofPoly _)
  | @mul a b p q _ _ iha ihb =>
    have hmul := Expands.mul iha ihb
    rw [ofPoly_mul, reduce_ofPoly] at hmul
    exact hmul (proper_ofPoly _)
  | @div a b p c _ _ hc iha ihb =>
    have hdenom : ((ofPoly p).mul (ofPoly (.const c)).swap).denom = .const c := by
      apply Poly.toPolynomial_injective
      show (Poly.one * .const c).toPolynomial = _
      rw [Poly.toPolynomial_one_mul]
    have hnumer : ((ofPoly p).mul (ofPoly (.const c)).swap).numer = p := Poly.mul_one_eq p
    have hdiv := Expands.div iha ihb
    rw [reduce_of_denom_eq_const hc hdenom, hnumer] at hdiv
    refine hdiv ?_ (proper_of_denom_ne_zero ?_)
    · rw [ofPoly, Poly.toPolynomial_const]
      exact C_ne_zero.2 hc
    · rw [hdenom, Poly.toPolynomial_const]
      exact C_ne_zero.2 hc
  | @neg a p _ ih =>
    have hneg := Expands.neg ih
    rwa [show (ofPoly p).neg = ofPoly (-p) from rfl, reduce_ofPoly] at hneg
  | @pow a b p n _ hk ih =>
    obtain ⟨hn, hlimit⟩ := Expr.integerExponent?_of_naturalExponent? hk
    have hpow := Expands.pow ih hn (by rwa [Int.natAbs_natCast])
      fun hneg => absurd (Int.natCast_nonneg n) (not_le.2 hneg)
    rw [ofPoly_zpow, reduce_ofPoly] at hpow
    exact hpow (proper_ofPoly _)

/-- An expression that is read as a polynomial is read as the same rational function. -/
theorem ofExpr?_eq_ofPoly (h : Poly.ofExpr? x e = some p) : ofExpr? x e = some (ofPoly p) :=
  ofExpr?_eq_some_iff.2 (expands_ofPoly (Poly.ofExpr?_eq_some_iff.1 h))

end RationalFunction

end MarketAlgebra
