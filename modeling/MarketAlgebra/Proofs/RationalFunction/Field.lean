import Mathlib.FieldTheory.RatFunc.AsPolynomial
import MarketAlgebra.Proofs.RationalFunction.Defined
import MarketAlgebra.Proofs.RationalFunction.Polynomial
import MarketAlgebra.Proofs.RationalFunction.Recognition

/-!
# Expressions in the field of rational functions

An expression of one variable with integer exponents denotes an element of the field of rational
functions over the rationals (`Expr.ratFunc`), as long as it divides by no zero function
(`Expr.DividesByNonzero`).  While the degrees are words, what is read from such an expression is
this element in lowest terms (`ofExpr?_canonical`).  So expressions of the same function are read as
the same pair of polynomials, and the pair has the values of the expression wherever that has one.

Whether a divisor is the zero function is a question about the function and not about the tree: no
rule of the reader looks at more than the numerator in lowest terms.
-/

namespace MarketAlgebra

open Polynomial

namespace Expr

/-- An integer constant, possibly under negations. -/
def integerConstant? : Expr → Option ℤ
  | .const c => if c.den = 1 then some c.num else none
  | .neg b => b.integerConstant?.map fun k => -k
  | _ => none

/-- An expression of one variable, constants and the five operations, in which every exponent is an
integer constant within the expansion limit. -/
abbrev Expandable (x : String) : Expr → Prop :=
  PowersIn x fun b => ∃ k, b.integerConstant? = some k ∧ k.natAbs ≤ expansionLimit

/-- The rational function of an expression of one variable, computed in the field of rational
functions, where a quotient by zero is zero. -/
noncomputable def ratFunc : Expr → RatFunc ℚ
  | .var _ => RatFunc.X
  | .const c => RatFunc.C c
  | .add a b => a.ratFunc + b.ratFunc
  | .sub a b => a.ratFunc - b.ratFunc
  | .mul a b => a.ratFunc * b.ratFunc
  | .div a b => a.ratFunc / b.ratFunc
  | .pow a b => a.ratFunc ^ (b.integerConstant?.getD 0)
  | .neg a => -a.ratFunc
  | .call _ _ => 0

/-- No divisor and no base of a negative power is the zero function. -/
def DividesByNonzero : Expr → Prop
  | .var _ | .const _ => True
  | .add a b | .sub a b | .mul a b => a.DividesByNonzero ∧ b.DividesByNonzero
  | .div a b => a.DividesByNonzero ∧ b.DividesByNonzero ∧ b.ratFunc ≠ 0
  | .pow a b => a.DividesByNonzero ∧ (b.integerConstant?.getD 0 < 0 → a.ratFunc ≠ 0)
  | .neg a | .call _ a => a.DividesByNonzero

variable {b : Expr} {k : ℤ}

/-- An integer constant within the limit is an exponent that is expanded. -/
theorem integerExponent?_of_integerConstant? (h : b.integerConstant? = some k)
    (hk : k.natAbs ≤ expansionLimit) : b.integerExponent? = some k := by
  induction b generalizing k with
  | const c =>
    simp only [integerConstant?, Option.ite_none_right_eq_some, Option.some.injEq] at h
    obtain ⟨hden, rfl⟩ := h
    have hlimit : expansionLimit = 512 := rfl
    have hrange : -((1 <<< 63 : ℕ) : ℤ) ≤ c.num ∧ c.num < ((1 <<< 63 : ℕ) : ℤ) := by
      simp only [Nat.shiftLeft_eq]
      omega
    rw [integerExponent?, if_pos ⟨hden, hrange⟩]
  | neg a ih =>
    obtain ⟨j, hj, rfl⟩ := Option.map_eq_some_iff.1 h
    rw [integerExponent?, ih hj (by rwa [Int.natAbs_neg] at hk)]
    rfl
  | _ => cases h

theorem integerConstant?_of_integerExponent? (h : b.integerExponent? = some k) :
    b.integerConstant? = some k := by
  induction b generalizing k with
  | const c =>
    simp only [integerExponent?, Option.ite_none_right_eq_some, Option.some.injEq] at h
    obtain ⟨⟨hden, -⟩, rfl⟩ := h
    exact if_pos hden
  | neg a ih =>
    obtain ⟨j, hj, rfl⟩ := Option.map_eq_some_iff.1 h
    rw [integerConstant?, ih hj]
    rfl
  | _ => cases h

end Expr

namespace RationalFunction

variable {f g : RationalFunction} {x : String} {e d : Expr}

/-- The quotient in the field of rational functions. -/
noncomputable def toRatFunc (f : RationalFunction) : RatFunc ℚ :=
  algebraMap ℚ[X] (RatFunc ℚ) f.numer.toPolynomial /
    algebraMap ℚ[X] (RatFunc ℚ) f.denom.toPolynomial

theorem toRatFunc_eq_iff (hf : f.denom.toPolynomial ≠ 0) (hg : g.denom.toPolynomial ≠ 0) :
    f.toRatFunc = g.toRatFunc ↔ f.numer.toPolynomial * g.denom.toPolynomial =
      g.numer.toPolynomial * f.denom.toPolynomial := by
  rw [toRatFunc, toRatFunc, div_eq_div_iff (RatFunc.algebraMap_ne_zero hf)
    (RatFunc.algebraMap_ne_zero hg), ← map_mul, ← map_mul,
    (RatFunc.algebraMap_injective ℚ).eq_iff]

theorem toRatFunc_eq_zero_iff (hf : f.denom.toPolynomial ≠ 0) :
    f.toRatFunc = 0 ↔ f.numer.toPolynomial = 0 := by
  rw [toRatFunc, div_eq_zero_iff, or_iff_left (RatFunc.algebraMap_ne_zero hf),
    map_eq_zero_iff _ (RatFunc.algebraMap_injective ℚ)]

theorem toRatFunc_reduce (hf : f.denom.toPolynomial ≠ 0) : f.reduce.toRatFunc = f.toRatFunc := by
  obtain ⟨hlowest, h⟩ := reduce_spec (proper_of_denom_ne_zero hf)
  exact (toRatFunc_eq_iff hlowest.denom_ne_zero hf).2 h

theorem toRatFunc_ofPoly (p : Poly) :
    (ofPoly p).toRatFunc = algebraMap ℚ[X] (RatFunc ℚ) p.toPolynomial := by
  rw [toRatFunc, ofPoly, Poly.toPolynomial_one, map_one, div_one]

theorem toRatFunc_add (h : Exact f g) (hf : f.denom.toPolynomial ≠ 0)
    (hg : g.denom.toPolynomial ≠ 0) : (f.add g).toRatFunc = f.toRatFunc + g.toRatFunc := by
  rw [toRatFunc, toRatFunc, toRatFunc, div_add_div _ _ (RatFunc.algebraMap_ne_zero hf)
    (RatFunc.algebraMap_ne_zero hg)]
  simp only [RationalFunction.add, Poly.toPolynomial_add, h.numer_denom, h.denom_numer,
    h.denom_denom, map_add, map_mul]
  ring

theorem toRatFunc_sub (h : Exact f g) (hf : f.denom.toPolynomial ≠ 0)
    (hg : g.denom.toPolynomial ≠ 0) : (f.sub g).toRatFunc = f.toRatFunc - g.toRatFunc := by
  rw [toRatFunc, toRatFunc, toRatFunc, div_sub_div _ _ (RatFunc.algebraMap_ne_zero hf)
    (RatFunc.algebraMap_ne_zero hg)]
  simp only [RationalFunction.sub, Poly.toPolynomial_sub, h.numer_denom, h.denom_numer,
    h.denom_denom, map_sub, map_mul]
  ring

theorem toRatFunc_mul (h : Exact f g) : (f.mul g).toRatFunc = f.toRatFunc * g.toRatFunc := by
  simp only [toRatFunc, RationalFunction.mul, h.numer_numer, h.denom_denom, map_mul,
    div_mul_div_comm]

theorem toRatFunc_neg (f : RationalFunction) : f.neg.toRatFunc = -f.toRatFunc := by
  simp only [toRatFunc, RationalFunction.neg, Poly.toPolynomial_neg, map_neg, neg_div]

theorem toRatFunc_swap (f : RationalFunction) : f.swap.toRatFunc = f.toRatFunc⁻¹ := by
  simp only [toRatFunc, swap, inv_div]

theorem toRatFunc_zpow {k : ℤ} (h : ExactPower f k.natAbs) :
    (f.zpow k).toRatFunc = f.toRatFunc ^ k := by
  have hpow {g : RationalFunction} {n : ℕ} (h : ExactPower g n) :
      (g.pow n).toRatFunc = g.toRatFunc ^ n := by
    simp only [toRatFunc, RationalFunction.pow, h.numer, h.denom, map_pow, div_pow]
  rw [zpow]
  split
  case isTrue hk => rw [hpow h, ← zpow_natCast, Int.natAbs_of_nonneg hk]
  case isFalse hk =>
    rw [hpow h.swap, toRatFunc_swap, inv_pow, ← zpow_natCast,
      Int.ofNat_natAbs_of_nonpos (not_le.1 hk).le, ← zpow_neg, neg_neg]

/-! ## Expressions that expand -/

/-- While the degrees are words, an expression expands to its function in the field. -/
theorem Expands.toRatFunc_eq (h : Expands x e f) (hlt : e.degreeBound < Poly.wordSize) :
    f.toRatFunc = e.ratFunc := by
  induction h with
  | var => rw [toRatFunc_ofPoly, Poly.toPolynomial_x, RatFunc.algebraMap_X, Expr.ratFunc]
  | const c => rw [toRatFunc_ofPoly, Poly.toPolynomial_const, RatFunc.algebraMap_C, Expr.ratFunc]
  | @add a b f g ha hb _ iha ihb =>
    rw [Expr.degreeBound] at hlt
    rw [toRatFunc_reduce (f := f.add g) (ha.denom_mul_ne_zero hb hlt),
      toRatFunc_add (ha.exact hb hlt).1 ha.lowest.denom_ne_zero hb.lowest.denom_ne_zero,
      iha (by omega), ihb (by omega), Expr.ratFunc]
  | @sub a b f g ha hb _ iha ihb =>
    rw [Expr.degreeBound] at hlt
    rw [toRatFunc_reduce (f := f.sub g) (ha.denom_mul_ne_zero hb hlt),
      toRatFunc_sub (ha.exact hb hlt).1 ha.lowest.denom_ne_zero hb.lowest.denom_ne_zero,
      iha (by omega), ihb (by omega), Expr.ratFunc]
  | @mul a b f g ha hb _ iha ihb =>
    rw [Expr.degreeBound] at hlt
    rw [toRatFunc_reduce (f := f.mul g) (ha.denom_mul_ne_zero hb hlt),
      toRatFunc_mul (ha.exact hb hlt).1, iha (by omega), ihb (by omega), Expr.ratFunc]
  | @div a b f g ha hb hne _ iha ihb =>
    rw [Expr.degreeBound] at hlt
    have hexact := (ha.exact hb hlt).2
    have hd := hexact.denom_mul_ne_zero ha.lowest.denom_ne_zero hne
    rw [toRatFunc_reduce (f := f.mul g.swap) hd, toRatFunc_mul hexact, toRatFunc_swap,
      iha (by omega), ihb (by omega), Expr.ratFunc, div_eq_mul_inv]
  | @neg a f ha ih =>
    rw [toRatFunc_reduce (f := f.neg) ha.lowest.denom_ne_zero, toRatFunc_neg, ih hlt, Expr.ratFunc]
  | @pow a b f k ha hk _ hne _ ih =>
    have hexact := ha.exactPower hk hlt
    have hd := hexact.denom_zpow_ne_zero ha.lowest.denom_ne_zero hne
    rw [toRatFunc_reduce hd, toRatFunc_zpow hexact, ih ((Expr.degreeBound_le_pow a b).trans_lt hlt),
      Expr.ratFunc, Expr.integerConstant?_of_integerExponent? hk, Option.getD_some]

/-- The numerator decides whether the expression is the zero function. -/
theorem Expands.ratFunc_eq_zero_iff (h : Expands x e f) (hlt : e.degreeBound < Poly.wordSize) :
    e.ratFunc = 0 ↔ f.numer.toPolynomial = 0 := by
  rw [← h.toRatFunc_eq hlt, toRatFunc_eq_zero_iff h.lowest.denom_ne_zero]

theorem Expands.dividesByNonzero (h : Expands x e f) (hlt : e.degreeBound < Poly.wordSize) :
    e.DividesByNonzero := by
  induction h with
  | var | const c => trivial
  | add _ _ _ iha ihb | sub _ _ _ iha ihb | mul _ _ _ iha ihb =>
    rw [Expr.degreeBound] at hlt
    exact ⟨iha (by omega), ihb (by omega)⟩
  | div _ hb hne _ iha ihb =>
    rw [Expr.degreeBound] at hlt
    exact ⟨iha (by omega), ihb (by omega), mt (hb.ratFunc_eq_zero_iff (by omega)).1 hne⟩
  | neg _ ih => exact ih hlt
  | pow ha hk _ hne _ ih =>
    have hbase := (Expr.degreeBound_le_pow _ _).trans_lt hlt
    refine ⟨ih hbase, fun hneg => mt (ha.ratFunc_eq_zero_iff hbase).1 (hne ?_)⟩
    rwa [Expr.integerConstant?_of_integerExponent? hk] at hneg

/-- An expression that divides by no zero function expands. -/
theorem exists_expands_of_dividesByNonzero (he : e.Expandable x)
    (hlt : e.degreeBound < Poly.wordSize) (h : e.DividesByNonzero) : ∃ f, Expands x e f := by
  induction e with
  | var name =>
    obtain rfl : name = x := he
    exact ⟨_, .var⟩
  | const c => exact ⟨_, .const c⟩
  | add a b iha ihb =>
    rw [Expr.degreeBound] at hlt
    obtain ⟨f, hf⟩ := iha he.1 (by omega) h.1
    obtain ⟨g, hg⟩ := ihb he.2 (by omega) h.2
    exact ⟨_, hf.add_of_lt hg hlt⟩
  | sub a b iha ihb =>
    rw [Expr.degreeBound] at hlt
    obtain ⟨f, hf⟩ := iha he.1 (by omega) h.1
    obtain ⟨g, hg⟩ := ihb he.2 (by omega) h.2
    exact ⟨_, hf.sub_of_lt hg hlt⟩
  | mul a b iha ihb =>
    rw [Expr.degreeBound] at hlt
    obtain ⟨f, hf⟩ := iha he.1 (by omega) h.1
    obtain ⟨g, hg⟩ := ihb he.2 (by omega) h.2
    exact ⟨_, hf.mul_of_lt hg hlt⟩
  | div a b iha ihb =>
    rw [Expr.degreeBound] at hlt
    obtain ⟨f, hf⟩ := iha he.1 (by omega) h.1
    obtain ⟨g, hg⟩ := ihb he.2 (by omega) h.2.1
    exact ⟨_, hf.div_of_lt hg hlt (mt (hg.ratFunc_eq_zero_iff (by omega)).2 h.2.2)⟩
  | neg a ih =>
    obtain ⟨f, hf⟩ := ih he hlt h
    exact ⟨_, .neg hf⟩
  | pow a b iha _ =>
    obtain ⟨ha, k, hk, hlimit⟩ := he
    have hbase := (Expr.degreeBound_le_pow a b).trans_lt hlt
    obtain ⟨f, hf⟩ := iha ha hbase h.1
    have hexponent := Expr.integerExponent?_of_integerConstant? hk hlimit
    refine ⟨_, hf.pow_of_lt hexponent hlimit
      (fun hneg => mt (hf.ratFunc_eq_zero_iff hbase).2 (h.2 ?_)) hlt⟩
    rwa [hk]
  | call f a => exact he.elim

theorem isSome_ofExpr?_iff (he : e.Expandable x) (hlt : e.degreeBound < Poly.wordSize) :
    (ofExpr? x e).isSome = true ↔ e.DividesByNonzero := by
  rw [Option.isSome_iff_exists]
  constructor
  · rintro ⟨f, hf⟩
    exact (ofExpr?_eq_some_iff.1 hf).dividesByNonzero hlt
  · intro h
    obtain ⟨f, hf⟩ := exists_expands_of_dividesByNonzero he hlt h
    exact ⟨f, ofExpr?_eq_some_iff.2 hf⟩

/-! ## Lowest terms -/

/-- Over the zero polynomial the denominator in lowest terms is one. -/
theorem Lowest.denom_eq_one (hf : f.Lowest) (h : f.numer.toPolynomial = 0) : f.denom = .one := by
  have hunit := hf.isCoprime
  rw [h, isCoprime_zero_left] at hunit
  apply Poly.toPolynomial_injective
  rw [hf.monic.eq_one_of_isUnit hunit, Poly.toPolynomial_one]

theorem Lowest.toRatFunc_inj (hf : f.Lowest) (hg : g.Lowest) :
    f.toRatFunc = g.toRatFunc ↔ f = g := by
  rw [toRatFunc_eq_iff hf.denom_ne_zero hg.denom_ne_zero]
  exact ⟨hf.eq_of_mul_eq hg, fun h => h ▸ rfl⟩

/-! ## The function that is read -/

/-- The function of an expression in lowest terms: the denominator is monic, nothing cancels, and
the quotient is the expression, in the field of rational functions and at every rational point where
the expression has a value. -/
structure Canonical (x : String) (e : Expr) (f : RationalFunction) : Prop where
  leading_eq_one : f.denom.leading = 1
  gcd_eq_one : Poly.gcd f.numer f.denom = .one
  denom_eq_one : f.numer.isZero = true → f.denom = .one
  toRatFunc_eq : f.toRatFunc = e.ratFunc
  eval_eq : ∀ (s : String → ℝ) (a : Rat) (v : ℝ), e.HasValue (Function.update s x (a : ℝ)) v →
    f.denom.eval a ≠ 0 ∧ v = ((f.numer.eval a / f.denom.eval a : Rat) : ℝ)

/-- The value at a rational point is the quotient of the values of the parts. -/
theorem Expands.eval_eq (h : Expands x e f) (hlt : e.degreeBound < Poly.wordSize)
    {s : String → ℝ} {a : Rat} {v : ℝ} (hv : e.HasValue (Function.update s x (a : ℝ)) v) :
    f.denom.eval a ≠ 0 ∧ v = ((f.numer.eval a / f.denom.eval a : Rat) : ℝ) := by
  obtain ⟨hdenom, hvalue⟩ := h.hasValue hlt hv
  rw [Function.update_self] at hdenom hvalue
  rw [value, Poly.eval_real_ratCast, Poly.eval_real_ratCast] at hvalue
  rw [Poly.eval_real_ratCast, Rat.cast_ne_zero] at hdenom
  exact ⟨hdenom, by rw [← hvalue, Rat.cast_div]⟩

theorem Expands.canonical (h : Expands x e f) (hlt : e.degreeBound < Poly.wordSize) :
    Canonical x e f where
  leading_eq_one := by
    rw [Poly.leading_eq]
    exact h.lowest.monic
  gcd_eq_one := Poly.gcd_eq_one h.lowest.isCoprime
  denom_eq_one hzero := h.lowest.denom_eq_one (Poly.isZero_iff.1 hzero)
  toRatFunc_eq := h.toRatFunc_eq hlt
  eval_eq _ _ _ hv := h.eval_eq hlt hv

/-- While the degrees are words, expressions without a division by the zero function, and only
those, are read as their function in lowest terms.  Two of them are read alike exactly when they
denote the same function. -/
theorem ofExpr?_canonical (he : e.Expandable x) (hlt : e.degreeBound < Poly.wordSize) :
    ((ofExpr? x e).isSome = true ↔ e.DividesByNonzero) ∧
      (∀ f, ofExpr? x e = some f → Canonical x e f) ∧
      ∀ d, d.Expandable x → d.degreeBound < Poly.wordSize → d.DividesByNonzero →
        e.DividesByNonzero → (ofExpr? x d = ofExpr? x e ↔ d.ratFunc = e.ratFunc) := by
  refine ⟨isSome_ofExpr?_iff he hlt, fun f hf => (ofExpr?_eq_some_iff.1 hf).canonical hlt, ?_⟩
  intro d hd hltd hdnz henz
  obtain ⟨f, hf⟩ := exists_expands_of_dividesByNonzero he hlt henz
  obtain ⟨g, hg⟩ := exists_expands_of_dividesByNonzero hd hltd hdnz
  rw [ofExpr?_eq_some_iff.2 hf, ofExpr?_eq_some_iff.2 hg, Option.some.injEq, ← hf.toRatFunc_eq hlt,
    ← hg.toRatFunc_eq hltd, hg.lowest.toRatFunc_inj hf.lowest]

/-! ## A quotient that cancels -/

/-- The power `((Q ^ 2 - 1) / (Q - 1)) ^ -(1)`. -/
def cancelledReciprocal : Expr :=
  .pow (.div (.sub (.pow (.var "Q") (.const 2)) (.const 1)) (.sub (.var "Q") (.const 1)))
    (.neg (.const 1))

/-- The function `1 / (Q + 1)`, which has a value at `Q = 1` where the expression has none. -/
theorem ofExpr?_canonical_of_cancelled :
    (cancelledReciprocal.Expandable "Q" ∧ cancelledReciprocal.degreeBound < Poly.wordSize) ∧
      cancelledReciprocal.DividesByNonzero ∧
      Canonical "Q" cancelledReciprocal ⟨.one, Poly.x + .one⟩ ∧
      cancelledReciprocal.ratFunc =
        (Expr.div (.const 1) (.add (.var "Q") (.const 1))).ratFunc := by
  have he : cancelledReciprocal.Expandable "Q" :=
    ⟨⟨⟨⟨rfl, 2, rfl, by decide⟩, trivial⟩, rfl, trivial⟩, -1, rfl, by decide⟩
  have hlt : cancelledReciprocal.degreeBound < Poly.wordSize := by decide
  have hf : ofExpr? "Q" cancelledReciprocal = some ⟨.one, Poly.x + .one⟩ := by
    with_unfolding_all rfl
  have hother : (Expr.div (.const 1) (.add (.var "Q") (.const 1))).Expandable "Q" :=
    ⟨trivial, rfl, trivial⟩
  have hlt' : (Expr.div (.const 1) (.add (.var "Q") (.const 1))).degreeBound < Poly.wordSize := by
    decide
  have hg : ofExpr? "Q" (.div (.const 1) (.add (.var "Q") (.const 1))) =
      some ⟨.one, Poly.x + .one⟩ := by with_unfolding_all rfl
  obtain ⟨hdefined, hcanonical, hsame⟩ := ofExpr?_canonical he hlt
  have hnonzero := hdefined.1 (by rw [hf]; rfl)
  have hnonzero' := (ofExpr?_eq_some_iff.1 hg).dividesByNonzero hlt'
  exact ⟨⟨he, hlt⟩, hnonzero, hcanonical _ hf,
    ((hsame _ hother hlt' hnonzero' hnonzero).1 (hg.trans hf.symm)).symm⟩

end RationalFunction

/-! ## A power that wraps around -/

section

open MarketAlgebra.Expr

variable {x : String} {e : Expr} {F : ℚ[X]}

/-- An expression that denotes a polynomial has exponents within the limit, divides by no zero
function and is this polynomial in the field of rational functions. -/
theorem Poly.Denotes.ratFunc_eq (h : Poly.Denotes x e F) :
    e.Expandable x ∧ e.DividesByNonzero ∧ e.ratFunc = algebraMap ℚ[X] (RatFunc ℚ) F := by
  induction h with
  | var => exact ⟨rfl, trivial, RatFunc.algebraMap_X.symm⟩
  | const c => exact ⟨trivial, trivial, (RatFunc.algebraMap_C c).symm⟩
  | add _ _ iha ihb =>
    exact ⟨⟨iha.1, ihb.1⟩, ⟨iha.2.1, ihb.2.1⟩, by rw [ratFunc, iha.2.2, ihb.2.2, map_add]⟩
  | sub _ _ iha ihb =>
    exact ⟨⟨iha.1, ihb.1⟩, ⟨iha.2.1, ihb.2.1⟩, by rw [ratFunc, iha.2.2, ihb.2.2, map_sub]⟩
  | mul _ _ iha ihb =>
    exact ⟨⟨iha.1, ihb.1⟩, ⟨iha.2.1, ihb.2.1⟩, by rw [ratFunc, iha.2.2, ihb.2.2, map_mul]⟩
  | @div a b f c _ _ hc iha ihb =>
    have hne : b.ratFunc ≠ 0 := by
      rw [ihb.2.2]
      exact RatFunc.algebraMap_ne_zero (C_ne_zero.2 hc)
    refine ⟨⟨iha.1, ihb.1⟩, ⟨iha.2.1, ihb.2.1, hne⟩, ?_⟩
    rw [ratFunc, div_eq_iff hne, iha.2.2, ihb.2.2, ← map_mul, mul_right_comm, ← C_mul,
      one_div_mul_cancel hc, C_1, one_mul]
  | neg _ ih => exact ⟨ih.1, ih.2.1, by rw [ratFunc, ih.2.2, map_neg]⟩
  | @pow a b f n _ hn ih =>
    obtain ⟨hexponent, hlimit⟩ := integerExponent?_of_naturalExponent? hn
    have hk := integerConstant?_of_integerExponent? hexponent
    refine ⟨⟨ih.1, n, hk, by rwa [Int.natAbs_natCast]⟩, ⟨ih.2.1, fun hneg => ?_⟩, ?_⟩
    · rw [hk, Option.getD_some] at hneg
      exact absurd (Int.natCast_nonneg n) (not_le.2 hneg)
    · rw [ratFunc, ih.2.2, hk, Option.getD_some, zpow_natCast, map_pow]

/-- The reciprocal `1 / (T - 1)`, where `T` is the power whose exponent is the number of words. -/
def wrappedReciprocal : Expr := .div (.const 1) (.sub Poly.wordPower (.const 1))

/-- It divides by a function that is not zero.  But `T` is read as one, so nothing is read. -/
theorem wrapped_divisor_is_not_zero :
    wrappedReciprocal.Expandable "Q" ∧ wrappedReciprocal.DividesByNonzero ∧
      RationalFunction.ofExpr? "Q" Poly.wordPower = some ⟨.one, .one⟩ ∧
      RationalFunction.ofExpr? "Q" wrappedReciprocal = none := by
  have hdivisor := Poly.Denotes.sub Poly.denotes_wordPower (.const 1)
  obtain ⟨hexpandable, hnonzero, hratFunc⟩ := hdivisor.ratFunc_eq
  refine ⟨⟨trivial, hexpandable⟩, ⟨trivial, hnonzero, ?_⟩, by with_unfolding_all rfl,
    by with_unfolding_all rfl⟩
  have hne {n : ℕ} (hn : 0 < n) : (X ^ n - C 1 : ℚ[X]) ≠ 0 := X_pow_sub_C_ne_zero hn 1
  rw [hratFunc]
  exact RatFunc.algebraMap_ne_zero (hne Poly.wordSize_pos)

end

end MarketAlgebra
