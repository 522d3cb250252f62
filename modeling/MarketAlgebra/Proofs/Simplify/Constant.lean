import MarketAlgebra.Proofs.Simplify.Affine

/-!
# Constant expressions

`Expr.rational?` computes the value of an expression that consists of rational constants, the four
operations and powers with an integer exponent, as long as no divisor is zero and no exponent is
beyond what the simplifier computes.  `Expr.Computes` says the same by one rule for each constructor
(`rational?_eq_some_iff`).  On these expressions a single pass is a calculator: its result is the
constant with that value (`step_of_rational?`).
-/

namespace MarketAlgebra

open MarketAlgebra.Expr

/-- The power of a rational that the simplifier computes. -/
def rationalPower? (b e : Rat) : Option Rat :=
  if e.isInt && e.num.natAbs < 1 <<< 32 && (0 ≤ e || b != 0) then some (b ^ e.num) else none

/-- A natural exponent within the limit. -/
theorem rationalPower?_natCast (b : Rat) {n : Nat} (h : n < 2 ^ 32) :
    rationalPower? b n = some (b ^ n) := by
  have hlimit : n < 4294967296 := h
  simp [rationalPower?, Rat.isInt, Nat.shiftLeft_eq, hlimit]

/-- The value of an expression of constants. -/
def Expr.rational? : Expr → Option Rat
  | .const c => some c
  | .add a b => return (← rational? a) + (← rational? b)
  | .sub a b => return (← rational? a) - (← rational? b)
  | .mul a b => return (← rational? a) * (← rational? b)
  | .div a b => do
    let d ← rational? b
    if d = 0 then none else return (← rational? a) / d
  | .neg a => return -(← rational? a)
  | .pow a b => do rationalPower? (← rational? a) (← rational? b)
  | .var _ | .call _ _ => none

/-- How an expression of constants is computed. -/
inductive Expr.Computes : Expr → Rat → Prop
  | const (c : Rat) : Computes (.const c) c
  | add {a b : Expr} {c d : Rat} : Computes a c → Computes b d → Computes (.add a b) (c + d)
  | sub {a b : Expr} {c d : Rat} : Computes a c → Computes b d → Computes (.sub a b) (c - d)
  | mul {a b : Expr} {c d : Rat} : Computes a c → Computes b d → Computes (.mul a b) (c * d)
  | div {a b : Expr} {c d : Rat} :
      Computes a c → Computes b d → d ≠ 0 → Computes (.div a b) (c / d)
  | neg {a : Expr} {c : Rat} : Computes a c → Computes (.neg a) (-c)
  | pow {a b : Expr} {c d v : Rat} :
      Computes a c → Computes b d → rationalPower? c d = some v → Computes (.pow a b) v

theorem Expr.rational?_eq_some_iff {e : Expr} {v : Rat} : e.rational? = some v ↔ e.Computes v := by
  constructor
  · intro h
    induction e generalizing v with
    | var x => cases h
    | const c =>
      obtain rfl := Option.some.inj h
      exact .const c
    | add a b iha ihb =>
      simp only [rational?, Option.bind_eq_bind, Option.bind_eq_some_iff, Option.pure_def,
        Option.some.injEq] at h
      obtain ⟨c, ha, d, hb, rfl⟩ := h
      exact .add (iha ha) (ihb hb)
    | sub a b iha ihb =>
      simp only [rational?, Option.bind_eq_bind, Option.bind_eq_some_iff, Option.pure_def,
        Option.some.injEq] at h
      obtain ⟨c, ha, d, hb, rfl⟩ := h
      exact .sub (iha ha) (ihb hb)
    | mul a b iha ihb =>
      simp only [rational?, Option.bind_eq_bind, Option.bind_eq_some_iff, Option.pure_def,
        Option.some.injEq] at h
      obtain ⟨c, ha, d, hb, rfl⟩ := h
      exact .mul (iha ha) (ihb hb)
    | div a b iha ihb =>
      simp only [rational?, Option.bind_eq_bind, Option.bind_eq_some_iff, Option.pure_def,
        Option.some.injEq, Option.ite_none_left_eq_some] at h
      obtain ⟨d, hb, hd, c, ha, rfl⟩ := h
      exact .div (iha ha) (ihb hb) hd
    | neg a ih =>
      simp only [rational?, Option.bind_eq_bind, Option.bind_eq_some_iff, Option.pure_def,
        Option.some.injEq] at h
      obtain ⟨c, ha, rfl⟩ := h
      exact .neg (ih ha)
    | pow a b iha ihb =>
      simp only [rational?, Option.bind_eq_bind, Option.bind_eq_some_iff] at h
      obtain ⟨c, ha, d, hb, hpow⟩ := h
      exact .pow (iha ha) (ihb hb) hpow
    | call f a ih => cases h
  · intro h
    induction h with
    | const c => rfl
    | add _ _ iha ihb | sub _ _ iha ihb | mul _ _ iha ihb => rw [rational?, iha, ihb]; rfl
    | div _ _ hd iha ihb =>
      simp only [rational?, iha, ihb, if_neg hd, Option.bind_eq_bind, Option.bind_some,
        Option.pure_def]
    | neg _ ih => rw [rational?, ih]; rfl
    | pow _ _ hpow iha ihb => rw [rational?, iha, ihb]; exact hpow

namespace Simplify

/-- A sum of constants is computed; any atom may stand for the variable that is not there. -/
theorem add_const_const (c d : Rat) : add (.const c) (.const d) = .const (c + d) := by
  have h := add_affine (atom_var "") 0 c 0 d
  rwa [affine_zero, affine_zero, add_zero, affine_zero] at h

theorem sub_const_const (c d : Rat) : sub (.const c) (.const d) = .const (c - d) := by
  have h := sub_affine (atom_var "") 0 c 0 d
  rwa [affine_zero, affine_zero, sub_zero, affine_zero] at h

theorem div_const_const (c : Rat) {d : Rat} (hd : d ≠ 0) :
    div (.const c) (.const d) = .const (c / d) := by
  simp [div, constant?, hd]

/-- A power of constants is computed unless its exponent is too large. -/
theorem pow_const_const {b e v : Rat} (h : rationalPower? b e = some v) :
    pow (.const b) (.const e) = .const v := by
  rw [rationalPower?] at h
  split at h
  case isFalse => cases h
  case isTrue hcond =>
    obtain ⟨w, hw⟩ : ∃ w, pow (.const b) (.const e) = .const w := by
      rw [pow, powConstant]
      by_cases hzero : e = 0
      · exact ⟨1, if_pos hzero⟩
      by_cases hone : e = 1
      · exact ⟨b, by rw [if_neg hzero, if_pos hone]⟩
      · exact ⟨_, by rw [if_neg hzero, if_neg hone, powConstants, if_pos hcond]⟩
    simp only [Bool.and_eq_true, Bool.or_eq_true, decide_eq_true_eq, bne_iff_ne] at hcond
    obtain ⟨⟨hint, -⟩, hzero⟩ := hcond
    obtain ⟨n, rfl⟩ : ∃ n : ℤ, e = n := ⟨e.num, eq_intCast_of_isInt hint⟩
    have hdefined : (Expr.pow (.const b) (.const (n : Rat))).Defined fun _ => 0 := by
      refine defined_pow_const_int_iff.2 ⟨trivial, fun hn => Rat.cast_ne_zero.2 ?_⟩
      exact hzero.resolve_left (not_le.2 (by exact_mod_cast hn))
    have hvalue := (hw ▸ keeps_pow (fun _ => 0) _ _ : Keeps _ _ (.const w)).hasValue
      hdefined.hasValue
    rw [real_pow_const_int] at hvalue
    have hcast : (w : ℝ) = ((b ^ n : ℚ) : ℝ) := by
      rw [Rat.cast_zpow]
      exact hvalue.2
    rw [hw, Rat.cast_injective hcast, ← Option.some.inj h, Rat.num_intCast]

/-- One pass computes an expression of constants. -/
theorem step_of_rational? {e : Expr} {v : Rat} (h : e.rational? = some v) : step e = .const v := by
  rw [rational?_eq_some_iff] at h
  induction h with
  | const c => rfl
  | add _ _ iha ihb => rw [step, iha, ihb, add_const_const]
  | sub _ _ iha ihb => rw [step, iha, ihb, sub_const_const]
  | mul _ _ iha ihb => rw [step, iha, ihb, mul_const_const]
  | div _ _ hd iha ihb => rw [step, iha, ihb, div_const_const _ hd]
  | neg _ ih => rw [step, ih, neg]
  | pow _ _ hpow iha ihb => rw [step, iha, ihb, pow_const_const hpow]

end Simplify

/-- An affine expression in a variable at a constant. -/
theorem Simplify.rational?_substitute_affine (x : String) (m k a : Rat) :
    ((Simplify.affine (.var x) m k).substitute x (.const a)).rational? = some (m * a + k) := by
  rw [Simplify.affine]
  split
  next hm => simp [substitute, rational?, hm]
  next hm =>
    have hscaled : ((Simplify.scaled m (.var x)).substitute x (.const a)).rational? =
        some (m * a) := by
      rcases (Simplify.atom_var x).base.scaled_cases hm with ⟨rfl, hs⟩ | ⟨rfl, hs⟩ | ⟨-, -, hs⟩
        <;> simp [hs, substitute, rational?]
    split
    next hk => rw [hscaled, hk, add_zero]
    next => simp [substitute, rational?, hscaled]

theorem simplify_of_rational? {e : Expr} {v : Rat} (h : e.rational? = some v) :
    simplify e = .const v :=
  simplify_eq_of_step (Simplify.step_of_rational? h) rfl

end MarketAlgebra
