import Mathlib.Algebra.Polynomial.Derivative
import MarketAlgebra.Poly.Conversion
import MarketAlgebra.Proofs.Poly.RealRoots
import MarketAlgebra.Proofs.Simplify.Constant
import MarketAlgebra.Proofs.Substitution

/-!
# Polynomial expressions

`Denotes` says which polynomial an expression denotes, with one rule for each constructor.  The
expression has a value everywhere, and it is the value of the polynomial (`Denotes.hasValue`).
`Expands` has the same rules for polynomials whose exponents are words, and `ofExpr?` follows them
(`ofExpr?_eq_some_iff`).  While the degrees are words both are the same (`Expands.denotes`,
`Denotes.expands`), and that can be told from the expression: no degree on the way is larger than
`Expr.degreeBound`.  A sum of small powers has a small bound, but powers of powers multiply theirs.

A polynomial that is written as an expression has its values, too (`hasValue_toExpr`).  The
antiderivative of a polynomial is the one that vanishes at zero (`toPolynomial_integral`).
-/

namespace MarketAlgebra

open Polynomial

namespace Expr

variable {e : Expr}

/-- An exponent that counts as an integer has this integer as its value. -/
theorem hasValue_of_integerExponent? {k : ℤ} (h : e.integerExponent? = some k) (s : String → ℝ) :
    e.HasValue s k := by
  induction e generalizing k with
  | const c =>
    simp only [integerExponent?, Option.ite_none_right_eq_some, Option.some.injEq] at h
    obtain ⟨⟨hden, -, -⟩, rfl⟩ := h
    refine ⟨trivial, ?_⟩
    rw [real_const, Rat.cast_def, hden, Nat.cast_one, div_one]
  | neg a ih =>
    obtain ⟨n, hn, rfl⟩ := Option.map_eq_some_iff.1 h
    obtain ⟨hd, hr⟩ := ih hn
    exact ⟨hd, by rw [real, hr, Int.cast_neg]⟩
  | _ => cases h

/-- An integer within the limit is an exponent that is expanded. -/
theorem integerExponent?_const {k : ℤ} (h : |(k : ℚ)| ≤ (expansionLimit : ℕ)) :
    (Expr.const k).integerExponent? = some k ∧ k.natAbs ≤ expansionLimit := by
  have habs : |k| ≤ (expansionLimit : ℤ) := by exact_mod_cast h
  have hlimit : (expansionLimit : ℤ) = 512 := rfl
  have hbounds := abs_le.1 habs
  have hrange : -((1 <<< 63 : ℕ) : ℤ) ≤ k ∧ k < ((1 <<< 63 : ℕ) : ℤ) := by
    simp only [Nat.shiftLeft_eq]
    omega
  constructor
  · rw [integerExponent?, Rat.den_intCast, Rat.num_intCast, if_pos ⟨rfl, hrange⟩]
  · omega

theorem naturalExponent?_natCast {n : ℕ} (h : n ≤ expansionLimit) :
    (Expr.const n).naturalExponent? = some n := by
  have habs : |((n : ℤ) : ℚ)| ≤ (expansionLimit : ℕ) := by
    rw [Int.cast_natCast, Nat.abs_cast]
    exact_mod_cast h
  have hk := (integerExponent?_const habs).1
  rw [Int.cast_natCast] at hk
  rw [naturalExponent?, hk]
  simp [h]

theorem integerExponent?_of_naturalExponent? {n : ℕ} (h : e.naturalExponent? = some n) :
    e.integerExponent? = some (n : ℤ) ∧ n ≤ expansionLimit := by
  obtain ⟨k, hk, hn⟩ := Option.bind_eq_some_iff.1 h
  simp only [Option.ite_none_right_eq_some, Option.some.injEq] at hn
  obtain ⟨⟨hnonneg, hlimit⟩, rfl⟩ := hn
  exact ⟨by rw [hk, Int.toNat_of_nonneg hnonneg], hlimit⟩

/-- No degree in the numerators and denominators of an expression is larger. -/
def degreeBound : Expr → ℕ
  | .var _ => 1
  | .const _ => 0
  | .add a b | .sub a b | .mul a b | .div a b => a.degreeBound + b.degreeBound
  | .neg a | .call _ a => a.degreeBound
  | .pow a b => max 1 (b.integerExponent?.getD 0).natAbs * a.degreeBound

theorem degreeBound_pow {b : Expr} {k : ℤ} (h : b.integerExponent? = some k) (a : Expr) :
    (Expr.pow a b).degreeBound = max 1 k.natAbs * a.degreeBound := by
  rw [degreeBound, h, Option.getD_some]

theorem degreeBound_le_pow (a b : Expr) : a.degreeBound ≤ (Expr.pow a b).degreeBound :=
  Nat.le_mul_of_pos_left _ (Nat.lt_of_lt_of_le one_pos (le_max_left _ _))

end Expr

namespace Poly

variable {p q : Poly} {f g : ℚ[X]} {x : String} {e : Expr}

/-! ## The ring over the reals -/

@[simp] theorem real_add (p q : Poly) : (p + q).real = p.real + q.real := by
  rw [real, toPolynomial_add, Polynomial.map_add, real, real]

@[simp] theorem real_sub (p q : Poly) : (p - q).real = p.real - q.real := by
  rw [real, toPolynomial_sub, Polynomial.map_sub, real, real]

theorem real_mul (h : (p * q).toPolynomial = p.toPolynomial * q.toPolynomial) :
    (p * q).real = p.real * q.real := by
  rw [real, h, Polynomial.map_mul, real, real]

theorem real_pow {n : ℕ} (h : (p.pow n).toPolynomial = p.toPolynomial ^ n) :
    (p.pow n).real = p.real ^ n := by
  rw [real, h, Polynomial.map_pow, real]

@[simp] theorem real_const (c : Rat) : (const c).real = C (c : ℝ) := by
  rw [real, toPolynomial_const, Polynomial.map_C]
  rfl

@[simp] theorem real_x : Poly.x.real = X := by
  rw [real, toPolynomial_x, Polynomial.map_X]

@[simp] theorem real_scale (c : Rat) (p : Poly) : (scale c p).real = C (c : ℝ) * p.real := by
  rw [real, toPolynomial_scale, Polynomial.map_mul, Polynomial.map_C, real]
  rfl

/-- A polynomial of degree zero is its constant term, which is not zero. -/
theorem eq_const_of_degree? (h : p.degree? = some 0) : p = const (p.coeff 0) ∧ p.coeff 0 ≠ 0 := by
  obtain ⟨t, ht, hdeg⟩ := Option.map_eq_some_iff.1 h
  obtain ⟨ts, hts⟩ := List.head?_eq_some_iff.1 ht
  have hne : p.toPolynomial ≠ 0 := by
    rw [Ne, toPolynomial_eq_zero_iff, hts]
    exact List.cons_ne_nil t ts
  have hconst : p.toPolynomial = C (p.coeff 0) := by
    rw [coeff_eq]
    refine eq_C_of_degree_le_zero ?_
    rw [(degree_of_terms hts).1, hdeg]
    rfl
  refine ⟨toPolynomial_injective (by rw [hconst, toPolynomial_const]), fun hz => hne ?_⟩
  rw [hconst, hz, map_zero]

/-- A constant other than zero has degree zero and is its own constant term. -/
theorem degree?_coeff_const {c : Rat} (hc : c ≠ 0) :
    (const c).degree? = some 0 ∧ (const c).coeff 0 = c := by
  have hterms : (const c).terms = [(0, c)] := by
    rw [const, monomial, dif_neg hc]
    simp only [Nat.zero_mod]
  refine ⟨by rw [degree?, hterms]; rfl, ?_⟩
  rw [coeff_eq, toPolynomial_const, coeff_C_zero]

/-! ## From expressions -/

/-- The polynomial that an expression denotes. -/
inductive Denotes (x : String) : Expr → ℚ[X] → Prop
  | var : Denotes x (.var x) X
  | const (c : Rat) : Denotes x (.const c) (C c)
  | add {a b : Expr} {f g : ℚ[X]} : Denotes x a f → Denotes x b g → Denotes x (.add a b) (f + g)
  | sub {a b : Expr} {f g : ℚ[X]} : Denotes x a f → Denotes x b g → Denotes x (.sub a b) (f - g)
  | mul {a b : Expr} {f g : ℚ[X]} : Denotes x a f → Denotes x b g → Denotes x (.mul a b) (f * g)
  | div {a b : Expr} {f : ℚ[X]} {c : Rat} :
      Denotes x a f → Denotes x b (C c) → c ≠ 0 → Denotes x (.div a b) (C (1 / c) * f)
  | neg {a : Expr} {f : ℚ[X]} : Denotes x a f → Denotes x (.neg a) (-f)
  | pow {a b : Expr} {f : ℚ[X]} {n : ℕ} :
      Denotes x a f → b.naturalExponent? = some n → Denotes x (.pow a b) (f ^ n)

/-- An expression has the values of the polynomial that it denotes. -/
theorem Denotes.hasValue (h : Denotes x e f) (s : String → ℝ) :
    e.HasValue s ((f.map (algebraMap ℚ ℝ)).eval (s x)) := by
  induction h with
  | var => exact ⟨trivial, by rw [Polynomial.map_X, eval_X, Expr.real]⟩
  | const c => exact ⟨trivial, by rw [Polynomial.map_C, eval_C, Expr.real]; rfl⟩
  | add _ _ iha ihb =>
    exact ⟨⟨iha.1, ihb.1⟩, by rw [Expr.real, iha.2, ihb.2, Polynomial.map_add, eval_add]⟩
  | sub _ _ iha ihb =>
    exact ⟨⟨iha.1, ihb.1⟩, by rw [Expr.real, iha.2, ihb.2, Polynomial.map_sub, eval_sub]⟩
  | mul _ _ iha ihb =>
    exact ⟨⟨iha.1, ihb.1⟩, by rw [Expr.real, iha.2, ihb.2, Polynomial.map_mul, eval_mul]⟩
  | @div _ _ _ c _ _ hc iha ihb =>
    rw [Polynomial.map_C, eval_C, eq_ratCast] at ihb
    refine ⟨⟨iha.1, ihb.1, by rw [ihb.2]; exact Rat.cast_ne_zero.2 hc⟩, ?_⟩
    rw [Expr.real, iha.2, ihb.2, Polynomial.map_mul, Polynomial.map_C, eval_mul, eval_C,
      eq_ratCast, Rat.cast_div, Rat.cast_one]
    ring
  | neg _ ih => exact ⟨ih.1, by rw [Expr.real, ih.2, Polynomial.map_neg, eval_neg]⟩
  | pow _ hk ih =>
    have hn := Expr.hasValue_of_integerExponent? (Expr.integerExponent?_of_naturalExponent? hk).1 s
    rw [Int.cast_natCast] at hn
    refine ⟨⟨ih.1, hn.1, ?_⟩, ?_⟩
    · rw [hn.2, ← Int.cast_natCast, powDefined_int_iff]
      intro hneg
      exact absurd hneg (not_lt.2 (Int.natCast_nonneg _))
    · rw [Expr.real, ih.2, hn.2, Real.rpow_natCast, Polynomial.map_pow, eval_pow]

/-- The value where the variable has a given value. -/
theorem Denotes.hasValue_update (h : Denotes x e f) (s : String → ℝ) (t : ℝ) :
    e.HasValue (Function.update s x t) ((f.map (algebraMap ℚ ℝ)).eval t) := by
  have hvalue := h.hasValue (Function.update s x t)
  rwa [Function.update_self] at hvalue

/-- How an expression expands to a polynomial. -/
inductive Expands (x : String) : Expr → Poly → Prop
  | var : Expands x (.var x) .x
  | const (c : Rat) : Expands x (.const c) (const c)
  | add {a b : Expr} {p q : Poly} : Expands x a p → Expands x b q → Expands x (.add a b) (p + q)
  | sub {a b : Expr} {p q : Poly} : Expands x a p → Expands x b q → Expands x (.sub a b) (p - q)
  | mul {a b : Expr} {p q : Poly} : Expands x a p → Expands x b q → Expands x (.mul a b) (p * q)
  | div {a b : Expr} {p : Poly} {c : Rat} :
      Expands x a p → Expands x b (Poly.const c) → c ≠ 0 → Expands x (.div a b) (scale (1 / c) p)
  | neg {a : Expr} {p : Poly} : Expands x a p → Expands x (.neg a) (-p)
  | pow {a b : Expr} {p : Poly} {n : ℕ} :
      Expands x a p → b.naturalExponent? = some n → Expands x (.pow a b) (p.pow n)

/-- An expression is read as the polynomial that it expands to. -/
theorem ofExpr?_eq_some_iff : ofExpr? x e = some p ↔ Expands x e p := by
  constructor
  · intro h
    induction e generalizing p with
    | var name =>
      simp only [ofExpr?, Option.ite_none_right_eq_some, Option.some.injEq] at h
      obtain ⟨rfl, rfl⟩ := h
      exact .var
    | const c =>
      obtain rfl := Option.some.inj h
      exact .const c
    | add a b iha ihb =>
      simp only [ofExpr?, Option.bind_eq_bind, Option.bind_eq_some_iff, Option.pure_def,
        Option.some.injEq] at h
      obtain ⟨f, ha, g, hb, rfl⟩ := h
      exact .add (iha ha) (ihb hb)
    | sub a b iha ihb =>
      simp only [ofExpr?, Option.bind_eq_bind, Option.bind_eq_some_iff, Option.pure_def,
        Option.some.injEq] at h
      obtain ⟨f, ha, g, hb, rfl⟩ := h
      exact .sub (iha ha) (ihb hb)
    | mul a b iha ihb =>
      simp only [ofExpr?, Option.bind_eq_bind, Option.bind_eq_some_iff, Option.pure_def,
        Option.some.injEq] at h
      obtain ⟨f, ha, g, hb, rfl⟩ := h
      exact .mul (iha ha) (ihb hb)
    | div a b iha ihb =>
      simp only [ofExpr?, Option.bind_eq_bind, Option.bind_eq_some_iff, Option.pure_def,
        Option.some.injEq, Option.ite_none_right_eq_some] at h
      obtain ⟨g, hb, hdeg, f, ha, rfl⟩ := h
      obtain ⟨hg, hne⟩ := eq_const_of_degree? hdeg
      exact .div (iha ha) (hg ▸ ihb hb) hne
    | neg a ih =>
      simp only [ofExpr?, Option.bind_eq_bind, Option.bind_eq_some_iff, Option.pure_def,
        Option.some.injEq] at h
      obtain ⟨f, ha, rfl⟩ := h
      exact .neg (ih ha)
    | pow a n iha _ =>
      simp only [ofExpr?, Option.bind_eq_bind, Option.bind_eq_some_iff, Option.pure_def,
        Option.some.injEq] at h
      obtain ⟨k, hk, f, ha, rfl⟩ := h
      exact .pow (iha ha) hk
    | call f a => cases h
  · intro h
    induction h with
    | var => exact if_pos rfl
    | const c => rfl
    | add _ _ iha ihb | sub _ _ iha ihb | mul _ _ iha ihb => rw [ofExpr?, iha, ihb]; rfl
    | div _ _ hc iha ihb =>
      have hconst := degree?_coeff_const hc
      simp only [ofExpr?, iha, ihb, hconst.1, hconst.2, Option.bind_eq_bind, Option.bind_some,
        Option.pure_def, if_true]
    | neg _ ih => rw [ofExpr?, ih]; rfl
    | pow _ hn ih => rw [ofExpr?, hn, ih]; rfl

/-- The degree of a polynomial that an expression expands to, whether or not exponents wrap
around. -/
theorem Expands.size_le (h : Expands x e p) : p.size ≤ e.degreeBound + 1 := by
  induction h with
  | var => exact size_x_le
  | const c => exact size_const_le c
  | add _ _ iha ihb =>
    rw [Expr.degreeBound]
    exact size_add_le (by omega) (by omega)
  | sub _ _ iha ihb =>
    rw [Expr.degreeBound]
    exact size_sub_le (by omega) (by omega)
  | @mul _ _ p q _ _ iha ihb =>
    have := size_mul_le p q
    rw [Expr.degreeBound]
    omega
  | @div _ _ p c _ _ _ iha _ =>
    have := size_timesTerm_le 0 (1 / c) p
    rw [Expr.degreeBound, scale]
    omega
  | @neg _ p _ ih => exact (size_neg_le p).trans ih
  | @pow _ _ p n _ hn ih =>
    rw [Expr.degreeBound_pow (Expr.integerExponent?_of_naturalExponent? hn).1, Int.natAbs_natCast]
    calc (p.pow n).size ≤ n * (p.size - 1) + 1 := size_pow_le p n
      _ ≤ max 1 n * _ + 1 :=
        Nat.succ_le_succ (Nat.mul_le_mul (le_max_right _ _) (Nat.sub_le_of_le_add ih))

theorem mul_size_lt {n m : ℕ} (hp : p.size ≤ m + 1) (h : max 1 n * m < wordSize) :
    n * (p.size - 1) < wordSize :=
  (Nat.mul_le_mul (le_max_right 1 n) (Nat.sub_le_of_le_add hp)).trans_lt h

/-- While the degrees are words, an expression expands to the polynomial that it denotes. -/
theorem Expands.denotes (h : Expands x e p) (hb : e.degreeBound < wordSize) :
    Denotes x e p.toPolynomial := by
  induction h with
  | var =>
    rw [toPolynomial_x]
    exact .var
  | const c =>
    rw [toPolynomial_const]
    exact .const c
  | add _ _ iha ihb =>
    rw [Expr.degreeBound] at hb
    rw [toPolynomial_add]
    exact .add (iha (by omega)) (ihb (by omega))
  | sub _ _ iha ihb =>
    rw [Expr.degreeBound] at hb
    rw [toPolynomial_sub]
    exact .sub (iha (by omega)) (ihb (by omega))
  | mul ha hb' iha ihb =>
    have hp := ha.size_le
    have hq := hb'.size_le
    rw [Expr.degreeBound] at hb
    rw [toPolynomial_mul_of_size_le (by omega)]
    exact .mul (iha (by omega)) (ihb (by omega))
  | div _ _ hc iha ihb =>
    rw [Expr.degreeBound] at hb
    rw [toPolynomial_scale]
    have hconst := ihb (by omega)
    rw [toPolynomial_const] at hconst
    exact .div (iha (by omega)) hconst hc
  | neg _ ih =>
    rw [toPolynomial_neg]
    exact .neg (ih hb)
  | @pow _ _ p n ha hn ih =>
    have hbase := ih ((Expr.degreeBound_le_pow _ _).trans_lt hb)
    rw [Expr.degreeBound_pow (Expr.integerExponent?_of_naturalExponent? hn).1,
      Int.natAbs_natCast] at hb
    rw [toPolynomial_pow_of_lt (mul_size_lt ha.size_le hb)]
    exact .pow hbase hn

/-- While the degrees are words, the polynomial that an expression denotes is found. -/
theorem Denotes.expands (h : Denotes x e f) (hb : e.degreeBound < wordSize) :
    ∃ p, Expands x e p ∧ p.toPolynomial = f := by
  induction h with
  | var => exact ⟨_, .var, toPolynomial_x⟩
  | const c => exact ⟨_, .const c, toPolynomial_const c⟩
  | add _ _ iha ihb =>
    rw [Expr.degreeBound] at hb
    obtain ⟨p, hp, rfl⟩ := iha (by omega)
    obtain ⟨q, hq, rfl⟩ := ihb (by omega)
    exact ⟨_, .add hp hq, toPolynomial_add p q⟩
  | sub _ _ iha ihb =>
    rw [Expr.degreeBound] at hb
    obtain ⟨p, hp, rfl⟩ := iha (by omega)
    obtain ⟨q, hq, rfl⟩ := ihb (by omega)
    exact ⟨_, .sub hp hq, toPolynomial_sub p q⟩
  | mul _ _ iha ihb =>
    rw [Expr.degreeBound] at hb
    obtain ⟨p, hp, rfl⟩ := iha (by omega)
    obtain ⟨q, hq, rfl⟩ := ihb (by omega)
    have hpsize := hp.size_le
    have hqsize := hq.size_le
    exact ⟨_, .mul hp hq, toPolynomial_mul_of_size_le (by omega)⟩
  | @div _ _ _ c _ _ hc iha ihb =>
    rw [Expr.degreeBound] at hb
    obtain ⟨p, hp, rfl⟩ := iha (by omega)
    obtain ⟨q, hq, hconst⟩ := ihb (by omega)
    obtain rfl : q = Poly.const c := toPolynomial_injective (by rw [hconst, toPolynomial_const])
    exact ⟨_, .div hp hq hc, toPolynomial_scale _ p⟩
  | neg _ ih =>
    obtain ⟨p, hp, rfl⟩ := ih hb
    exact ⟨_, .neg hp, toPolynomial_neg p⟩
  | pow _ hn ih =>
    obtain ⟨p, hp, rfl⟩ := ih ((Expr.degreeBound_le_pow _ _).trans_lt hb)
    rw [Expr.degreeBound_pow (Expr.integerExponent?_of_naturalExponent? hn).1,
      Int.natAbs_natCast] at hb
    exact ⟨_, .pow hp hn, toPolynomial_pow_of_lt (mul_size_lt hp.size_le hb)⟩

section

variable (h : ofExpr? x e = some p) (hb : e.degreeBound < wordSize)
include h hb

theorem denotes_of_ofExpr? : Denotes x e p.toPolynomial := (ofExpr?_eq_some_iff.1 h).denotes hb

/-- An expression that is read as a polynomial has its values. -/
theorem hasValue_of_ofExpr? (s : String → ℝ) : e.HasValue s (p.real.eval (s x)) :=
  (denotes_of_ofExpr? h hb).hasValue s

/-- The value where the variable has a given value. -/
theorem hasValue_update_of_ofExpr? (s : String → ℝ) (t : ℝ) :
    e.HasValue (Function.update s x t) (p.real.eval t) :=
  (denotes_of_ofExpr? h hb).hasValue_update s t

end

/-! ## To expressions -/

/-- The power of the variable in a term that is not constant. -/
def powerExpr (x : String) (n : ℕ) : Expr := if n = 1 then .var x else .pow (.var x) (.int n)

theorem termExpr_of_ne_zero {n : ℕ} (hn : n ≠ 0) (x : String) (c : Rat) :
    termExpr x n c = if c = 1 then powerExpr x n else .mul (.const c) (powerExpr x n) := by
  obtain ⟨n, rfl⟩ := Nat.exists_eq_succ_of_ne_zero hn
  simp [termExpr, powerExpr]

theorem hasValue_powerExpr (x : String) (n : ℕ) (s : String → ℝ) :
    (powerExpr x n).HasValue s (s x ^ n) := by
  rw [powerExpr]
  split
  next hn => exact ⟨trivial, by rw [hn, pow_one, Expr.real]⟩
  next =>
    refine ⟨Expr.defined_pow_const_int_iff.2 ⟨trivial, fun hneg => by omega⟩, ?_⟩
    rw [Expr.int, Expr.real_pow_const_int, Expr.real, zpow_natCast]

/-- The value of a written term. -/
theorem hasValue_termExpr (x : String) (n : ℕ) (c : Rat) (s : String → ℝ) :
    (termExpr x n c).HasValue s (c * s x ^ n) := by
  by_cases hn : n = 0
  · subst hn
    exact ⟨trivial, by rw [termExpr, Expr.real, pow_zero, mul_one]⟩
  · have hpower := hasValue_powerExpr x n s
    rw [termExpr_of_ne_zero hn]
    split
    next hc => rwa [hc, Rat.cast_one, one_mul]
    next => exact ⟨⟨trivial, hpower.1⟩, by rw [Expr.real, Expr.real, hpower.2]⟩

theorem toExpr_eq_sum (x : String) (p : Poly) :
    p.toExpr x = Simplify.sum (p.terms.map fun t => termExpr x t.1 t.2) := by
  rw [toExpr]
  cases p.terms <;> rfl

/-- The value of a list of terms. -/
theorem eval_map_sumTerms (ts : List (ℕ × ℚ)) (a : ℝ) :
    ((sumTerms ts).map (algebraMap ℚ ℝ)).eval a = (ts.map fun t => (t.2 : ℝ) * a ^ t.1).sum := by
  induction ts with
  | nil => simp
  | cons t ts ih =>
    rw [sumTerms_cons, Polynomial.map_add, eval_add, ih, map_monomial, eval_monomial,
      List.map_cons, List.sum_cons]
    rfl

/-- A written polynomial has its values. -/
theorem hasValue_toExpr (x : String) (p : Poly) (s : String → ℝ) :
    (p.toExpr x).HasValue s (p.real.eval (s x)) := by
  have hdefined : Simplify.AllDefined s (p.terms.map fun t => termExpr x t.1 t.2) := by
    intro e he
    obtain ⟨t, -, rfl⟩ := List.mem_map.1 he
    exact (hasValue_termExpr x t.1 t.2 s).1
  have hsum := Simplify.sum_spec hdefined
  have hreal : Simplify.sumReal s (p.terms.map fun t => termExpr x t.1 t.2) =
      p.real.eval (s x) := by
    rw [real, toPolynomial, eval_map_sumTerms, Simplify.sumReal, List.map_map]
    exact congrArg List.sum (List.map_congr_left fun t _ => (hasValue_termExpr x t.1 t.2 s).2)
  rwa [toExpr_eq_sum, ← hreal]

/-- The value of a written polynomial at an expression. -/
theorem hasValue_substitute_toExpr (x : String) (p : Poly) {s : String → ℝ} {r : Expr} {a : ℝ}
    (hr : r.HasValue s a) : ((p.toExpr x).substitute x r).HasValue s (p.real.eval a) := by
  rw [Expr.hasValue_substitute_iff hr]
  have hvalue := hasValue_toExpr x p (Function.update s x a)
  rwa [Function.update_self] at hvalue

/-! ## At a constant -/

theorem rational?_substitute_powerExpr (x : String) {n : ℕ} (hn : n < 2 ^ 32) (a : Rat) :
    ((powerExpr x n).substitute x (.const a)).rational? = some (a ^ n) := by
  rw [powerExpr]
  split
  next hn => simp [Expr.substitute, Expr.rational?, hn]
  next =>
    have hpow : rationalPower? a (n : Rat) = some (a ^ n) := by
      rw [rationalPower?, if_pos, Rat.num_natCast, zpow_natCast]
      rw [Rat.num_natCast, Int.natAbs_natCast]
      simp [Rat.isInt]
      omega
    simp [Expr.substitute, Expr.rational?, Expr.int, hpow]

/-- A written term at a constant is an expression of constants. -/
theorem rational?_substitute_termExpr (x : String) {n : ℕ} (hn : n < 2 ^ 32) (c a : Rat) :
    ((termExpr x n c).substitute x (.const a)).rational? = some (c * a ^ n) := by
  by_cases hzero : n = 0
  · subst hzero
    rw [termExpr, Expr.substitute, Expr.rational?, pow_zero, mul_one]
  · have hpower := rational?_substitute_powerExpr x hn a
    rw [termExpr_of_ne_zero hzero]
    split
    next hc => rw [hpower, hc, one_mul]
    next =>
      rw [Expr.substitute, Expr.substitute, Expr.rational?, Expr.rational?, hpower]
      rfl

/-- A written polynomial at a constant is an expression of constants. -/
theorem rational?_substitute_toExpr (x : String) {p : Poly} (hp : p.size ≤ 2 ^ 32) (a : Rat) :
    ((p.toExpr x).substitute x (.const a)).rational? = some (p.eval a) := by
  have hterms : ∀ t ∈ p.terms, ((termExpr x t.1 t.2).substitute x (.const a)).rational? =
      some (t.2 * a ^ t.1) := fun t ht =>
    rational?_substitute_termExpr x (size_le_iff.1 hp t ht) t.2 a
  have hfold : ∀ (ts : List (ℕ × ℚ)) (e : Expr) (v : Rat),
      (∀ t ∈ ts, ((termExpr x t.1 t.2).substitute x (.const a)).rational? =
        some (t.2 * a ^ t.1)) →
      (e.substitute x (.const a)).rational? = some v →
      (((ts.map fun t => termExpr x t.1 t.2).foldl .add e).substitute x (.const a)).rational? =
        some (ts.foldl (fun s t => s + t.2 * a ^ t.1) v) := by
    intro ts
    induction ts with
    | nil => exact fun e v _ he => he
    | cons t ts ih =>
      intro e v hts he
      obtain ⟨ht, hts⟩ := List.forall_mem_cons.1 hts
      refine ih (.add e (termExpr x t.1 t.2)) (v + t.2 * a ^ t.1) hts ?_
      rw [Expr.substitute, Expr.rational?, he, ht]
      rfl
  rw [toExpr_eq_sum, eval]
  cases hts : p.terms with
  | nil => rfl
  | cons t ts =>
    rw [hts] at hterms
    obtain ⟨ht, hts⟩ := List.forall_mem_cons.1 hterms
    refine hfold ts _ (0 + t.2 * a ^ t.1) hts ?_
    rw [ht, zero_add]

/-! ## Affine expressions -/

/-- The written form of an affine expression in the variable is read as a linear polynomial. -/
theorem ofExpr?_affine (x : String) (m k : Rat) :
    ∃ p, ofExpr? x (Simplify.affine (.var x) m k) = some p ∧
      p.toPolynomial = C m * X + C k := by
  have hvar : ofExpr? x (.var x) = some Poly.x := if_pos rfl
  rw [Simplify.affine]
  split
  next hm => exact ⟨const k, rfl, by simp [hm]⟩
  next hm =>
    obtain ⟨p, hp, hpoly⟩ : ∃ p, ofExpr? x (Simplify.scaled m (.var x)) = some p ∧
        p.toPolynomial = C m * X := by
      rcases (Simplify.atom_var x).base.scaled_cases hm with ⟨rfl, hs⟩ | ⟨rfl, hs⟩ | ⟨-, -, hs⟩
        <;> rw [hs]
      · exact ⟨_, hvar, by simp⟩
      · exact ⟨-Poly.x, by rw [ofExpr?, hvar]; rfl, by simp⟩
      · exact ⟨const m * Poly.x, by simp [ofExpr?], by simp [toPolynomial_const_mul]⟩
    split
    next hk => exact ⟨p, hp, by rw [hpoly, hk, map_zero, add_zero]⟩
    next => exact ⟨p + const k, by rw [ofExpr?, hp]; rfl, by simp [hpoly]⟩

/-! ## Antiderivatives -/

/-- The antiderivatives of a list of terms. -/
def integralTerms (ts : List (ℕ × ℚ)) : List (ℕ × ℚ) :=
  ts.map fun t => (t.1 + 1, t.2 / (t.1 + 1 : ℕ))

/-- The antiderivative, term by term. -/
theorem derivative_sumTerms_integral (ts : List (ℕ × ℚ)) :
    Polynomial.derivative (sumTerms (integralTerms ts)) = sumTerms ts ∧
      (sumTerms (integralTerms ts)).eval 0 = 0 := by
  induction ts with
  | nil => exact ⟨Polynomial.derivative_zero, eval_zero⟩
  | cons t ts ih =>
    have hne : ((t.1 + 1 : ℕ) : ℚ) ≠ 0 := Nat.cast_ne_zero.2 (Nat.succ_ne_zero t.1)
    rw [integralTerms, List.map_cons, sumTerms_cons, ← integralTerms, sumTerms_cons,
      Polynomial.derivative_add, ih.1, eval_add, ih.2, Polynomial.derivative_monomial,
      eval_monomial, div_mul_cancel₀ _ hne]
    simp

theorem isIntegrable_iff : p.isIntegrable = true ↔ p.size < wordSize := decide_eq_true_iff

section

variable (hp : p.isIntegrable = true)
include hp

/-- Where every exponent has a successor, the integral is taken term by term. -/
theorem toPolynomial_integral_eq : p.integral.toPolynomial = sumTerms (integralTerms p.terms) := by
  have hnext : ∀ t ∈ p.terms, nextExponent t.1 = t.1 + 1 := fun t ht =>
    Nat.mod_eq_of_lt ((Nat.succ_le_of_lt (size_le_iff.1 le_rfl t ht)).trans_lt
      (isIntegrable_iff.1 hp))
  have hterms : p.terms.map (fun t => (nextExponent t.1, t.2 / ((nextExponent t.1 : ℕ) : ℚ))) =
      integralTerms p.terms :=
    List.map_congr_left fun t ht => by rw [hnext t ht]
  rw [integral, hterms, toPolynomial_ofTerms_of_lt]
  intro t ht
  obtain ⟨s, hs, rfl⟩ := List.mem_map.1 ht
  exact (Nat.succ_le_of_lt (size_le_iff.1 le_rfl s hs)).trans_lt (isIntegrable_iff.1 hp)

/-- The antiderivative is the one without a constant term. -/
theorem toPolynomial_integral {F : ℚ[X]} (hderiv : Polynomial.derivative F = p.toPolynomial)
    (hzero : F.eval 0 = 0) : p.integral.toPolynomial = F := by
  obtain ⟨hderiv', hzero'⟩ := derivative_sumTerms_integral p.terms
  rw [toPolynomial_integral_eq hp]
  rw [toPolynomial, ← hderiv', ← sub_eq_zero, ← Polynomial.derivative_sub] at hderiv
  have hconst := eq_C_of_natDegree_eq_zero (Polynomial.derivative_eq_zero.1 hderiv)
  have heval := congrArg (Polynomial.eval 0) hconst
  rw [eval_sub, hzero, hzero', eval_C, sub_zero] at heval
  rw [← heval, map_zero, sub_eq_zero] at hconst
  exact hconst.symm

theorem eval_zero_integral : p.integral.eval 0 = 0 := by
  rw [eval_eq, toPolynomial_integral_eq hp]
  exact (derivative_sumTerms_integral p.terms).2

theorem derivative_real_integral : Polynomial.derivative p.integral.real = p.real := by
  rw [real, toPolynomial_integral_eq hp, Polynomial.derivative_map,
    (derivative_sumTerms_integral p.terms).1, real, toPolynomial]

theorem eval_zero_real_integral : p.integral.real.eval 0 = 0 := by
  rw [← Rat.cast_zero, eval_real_ratCast, eval_zero_integral hp]

end

end Poly

end MarketAlgebra
