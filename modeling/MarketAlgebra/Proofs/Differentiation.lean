import Mathlib.Analysis.SpecialFunctions.Pow.Deriv
import Mathlib.Analysis.SpecialFunctions.Trigonometric.ArctanDeriv
import Mathlib.Topology.Algebra.Module.ModuleTopology
import MarketAlgebra.Engine.Exact
import MarketAlgebra.Proofs.Simplify.Pass
import MarketAlgebra.Proofs.Substitution

/-!
# The symbolic derivative is the derivative

`derivative` works on trees, and the value of what it gives is compared here with the derivative of
a real function, the value of the expression as a function of one variable.

`DerivesAt` says of an expression and a point that the two agree, with the common value.  Every
rule of differentiation passes it on, under the condition of that rule at that point
(`DerivesAt.mul`, `DerivesAt.div`, `DerivesAt.pow_of_not_mentions`).  `Expr.Regular` collects these
conditions, and at a regular point the symbolic derivative is the derivative
(`derivative_is_derivative`).
-/

namespace MarketAlgebra

open Filter Topology

/-- A function is defined around a point where it is. -/
theorem Fn.eventually_definedAt (f : Fn) {r : ℝ} (h : f.DefinedAt r) :
    ∀ᶠ y in 𝓝 r, f.DefinedAt y := by
  cases f with
  | sin | cos | exp => exact .of_forall fun _ => trivial
  | tan => exact Real.continuous_cos.continuousAt.eventually_ne h
  | log => exact lt_mem_nhds h

namespace Expr

/-- The conditions under which an expression is differentiated at a point.  They are those of its
value, and a power has a positive base, or else an integer exponent that does not depend on the
variable; then the base may be negative, and it may be zero when the exponent is at least one. -/
def Regular (x : String) (s : String → ℝ) : Expr → Prop
  | .var _ | .const _ => True
  | .add a b | .sub a b | .mul a b => a.Regular x s ∧ b.Regular x s
  | .div a b => a.Regular x s ∧ b.Regular x s ∧ b.real s ≠ 0
  | .pow a b => a.Regular x s ∧ b.Regular x s ∧
      (0 < a.real s ∨
        b.mentions x = false ∧ ∃ n : ℤ, b.real s = n ∧ (a.real s ≠ 0 ∨ 1 ≤ n))
  | .neg a => a.Regular x s
  | .call f a => a.Regular x s ∧ f.DefinedAt (a.real s)

variable {x : String} {s : String → ℝ} {a b e : Expr}

/-- An expression has a value where it is regular. -/
theorem Regular.defined (h : e.Regular x s) : e.Defined s := by
  induction e with
  | var name | const c => trivial
  | add a b iha ihb | sub a b iha ihb | mul a b iha ihb => exact ⟨iha h.1, ihb h.2⟩
  | div a b iha ihb => exact ⟨iha h.1, ihb h.2.1, h.2.2⟩
  | pow a b iha ihb =>
    obtain ⟨ha, hb, hpos | ⟨-, n, hn, hbase⟩⟩ := h
    · exact ⟨iha ha, ihb hb, .of_pos hpos _⟩
    · refine ⟨iha ha, ihb hb, ?_⟩
      rw [hn, powDefined_int_iff]
      exact fun hneg => hbase.resolve_right (by omega)
  | neg a ih => exact ih h
  | call f a ih => exact ⟨ih h.1, h.2⟩

/-- The value of an expression does not depend on a variable that does not occur in it. -/
theorem real_update_of_not_mentions (h : e.mentions x = false) (s : String → ℝ) (t : ℝ) :
    e.real (Function.update s x t) = e.real s := by
  induction e with
  | var name => exact Function.update_of_ne (by simpa [mentions] using h) t s
  | const c => rfl
  | add a b iha ihb | sub a b iha ihb | mul a b iha ihb | div a b iha ihb | pow a b iha ihb =>
    obtain ⟨ha, hb⟩ := Bool.or_eq_false_iff.1 h
    simp only [real, iha ha, ihb hb]
  | neg a ih | call f a ih => simp only [real, ih h]

end Expr

open MarketAlgebra.Expr MarketAlgebra.Derivative

/-- At a point, the expression has a derivative as a function of the variable, and its symbolic
derivative has that value. -/
structure DerivesAt (x : String) (s : String → ℝ) (e : Expr) (d : ℝ) : Prop where
  defined : e.Defined s
  hasDerivAt : HasDerivAt (fun t => e.real (Function.update s x t)) d (s x)
  hasValue : (derivative x e).HasValue s d

namespace DerivesAt

variable {x : String} {s : String → ℝ} {a b : Expr} {a' b' : ℝ}

/-! ## Leaves -/

theorem var (name : String) :
    DerivesAt x s (.var name) (if name = x then 1 else 0) := by
  by_cases hname : name = x
  · subst hname
    simp only [if_true]
    refine ⟨trivial, ?_, ?_⟩
    · simpa only [real, Function.update_self] using hasDerivAt_id' (s name)
    · rw [derivative, if_pos rfl]
      exact ⟨trivial, real_one⟩
  · simp only [if_neg hname]
    refine ⟨trivial, ?_, ?_⟩
    · simpa only [real, Function.update_of_ne hname] using hasDerivAt_const (s x) (s name)
    · rw [derivative, if_neg hname]
      exact ⟨trivial, real_zero⟩

theorem const (c : Rat) : DerivesAt x s (.const c) 0 :=
  ⟨trivial, hasDerivAt_const _ _, trivial, real_zero⟩

/-! ## Rules -/

theorem add (ha : DerivesAt x s a a') (hb : DerivesAt x s b b') :
    DerivesAt x s (.add a b) (a' + b') where
  defined := ⟨ha.defined, hb.defined⟩
  hasDerivAt := ha.hasDerivAt.add hb.hasDerivAt
  hasValue := by
    refine (Simplify.keeps_add s _ _).hasValue ⟨⟨ha.hasValue.1, hb.hasValue.1⟩, ?_⟩
    rw [real, ha.hasValue.2, hb.hasValue.2]

theorem sub (ha : DerivesAt x s a a') (hb : DerivesAt x s b b') :
    DerivesAt x s (.sub a b) (a' - b') where
  defined := ⟨ha.defined, hb.defined⟩
  hasDerivAt := ha.hasDerivAt.sub hb.hasDerivAt
  hasValue := by
    refine (Simplify.keeps_sub s _ _).hasValue ⟨⟨ha.hasValue.1, hb.hasValue.1⟩, ?_⟩
    rw [real, ha.hasValue.2, hb.hasValue.2]

theorem neg (ha : DerivesAt x s a a') : DerivesAt x s (.neg a) (-a') where
  defined := ha.defined
  hasDerivAt := ha.hasDerivAt.neg
  hasValue := (keeps_simplifyOnce s _).hasValue ⟨ha.hasValue.1, by rw [real, ha.hasValue.2]⟩

theorem mul (ha : DerivesAt x s a a') (hb : DerivesAt x s b b') :
    DerivesAt x s (.mul a b) (a' * b.real s + a.real s * b') where
  defined := ⟨ha.defined, hb.defined⟩
  hasDerivAt := by
    refine (ha.hasDerivAt.mul hb.hasDerivAt).congr_deriv ?_
    rw [Function.update_eq_self]
  hasValue := by
    refine (keeps_simplifyOnce s _).hasValue
      ⟨⟨⟨ha.hasValue.1, hb.defined⟩, ha.defined, hb.hasValue.1⟩, ?_⟩
    simp only [real, ha.hasValue.2, hb.hasValue.2]

/-- A variable that does not occur has no influence on the derivative. -/
theorem eq_zero_of_not_mentions (hb : DerivesAt x s b b') (h : b.mentions x = false) : b' = 0 := by
  refine hb.hasDerivAt.unique ?_
  simpa only [real_update_of_not_mentions h] using hasDerivAt_const (s x) (b.real s)

/-- A square, as it stands in the rules. -/
theorem hasValue_square (ha : a.Defined s) : (Expr.pow a (.int 2)).HasValue s (a.real s ^ 2) :=
  ⟨defined_pow_const_int_iff.2 ⟨ha, fun hneg => absurd hneg (by decide)⟩, real_pow_const_int 2⟩

theorem div (ha : DerivesAt x s a a') (hb : DerivesAt x s b b') (hne : b.real s ≠ 0) :
    DerivesAt x s (.div a b) ((a' * b.real s - a.real s * b') / b.real s ^ 2) where
  defined := ⟨ha.defined, hb.defined, hne⟩
  hasDerivAt := by
    have hne' : b.real (Function.update s x (s x)) ≠ 0 := by rwa [Function.update_eq_self]
    refine (ha.hasDerivAt.div hb.hasDerivAt hne').congr_deriv ?_
    rw [Function.update_eq_self]
  hasValue := by
    rw [derivative]
    split
    case isTrue =>
      have hsquare := hasValue_square hb.defined
      refine (keeps_simplifyOnce s _).hasValue ⟨⟨⟨⟨ha.hasValue.1, hb.defined⟩, ha.defined,
        hb.hasValue.1⟩, hsquare.1, ?_⟩, ?_⟩
      · rw [hsquare.2]
        exact pow_ne_zero 2 hne
      · rw [real, hsquare.2, real, real, real, ha.hasValue.2, hb.hasValue.2]
    case isFalse hmentions =>
      rw [hb.eq_zero_of_not_mentions (Bool.eq_false_iff.2 hmentions)]
      refine (keeps_simplifyOnce s _).hasValue ⟨⟨ha.hasValue.1, hb.defined, hne⟩, ?_⟩
      rw [real, ha.hasValue.2]
      field_simp
      ring

/-- An exponent less one has the value less one. -/
theorem hasValue_predecessor {n : Expr} {v : ℝ} (h : n.HasValue s v) :
    (predecessor n).HasValue s (v - 1) := by
  obtain ⟨hd, rfl⟩ := h
  cases n with
  | const c => exact ⟨trivial, by simp [predecessor]⟩
  | _ => exact ⟨⟨hd, trivial⟩, by simp [predecessor, real]⟩

/-- The rule for an exponent that does not mention the variable. -/
theorem pow_of_not_mentions (ha : DerivesAt x s a a') (hb : b.Defined s)
    (hmentions : b.mentions x = false)
    (hbase : 0 < a.real s ∨ ∃ n : ℤ, b.real s = n ∧ (a.real s ≠ 0 ∨ 1 ≤ n)) :
    DerivesAt x s (.pow a b) (b.real s * a.real s ^ (b.real s - 1) * a') where
  defined := by
    refine ⟨ha.defined, hb, ?_⟩
    obtain hpos | ⟨n, hn, hbase⟩ := hbase
    · exact .of_pos hpos _
    · rw [hn, powDefined_int_iff]
      exact fun hneg => hbase.resolve_right (by omega)
  hasDerivAt := by
    have hbase' : a.real (Function.update s x (s x)) ≠ 0 ∨ 1 ≤ b.real s := by
      rw [Function.update_eq_self]
      obtain hpos | ⟨n, hn, hne | hone⟩ := hbase
      · exact .inl hpos.ne'
      · exact .inl hne
      · exact .inr (by rw [hn]; exact_mod_cast hone)
    have h := ha.hasDerivAt.rpow_const hbase'
    simp only [real, real_update_of_not_mentions hmentions]
    exact h.congr_deriv (by rw [Function.update_eq_self]; ring)
  hasValue := by
    have hpred := hasValue_predecessor hb.hasValue
    have hdefined : PowDefined (a.real s) (b.real s - 1) := by
      obtain hpos | ⟨n, hn, hbase⟩ := hbase
      · exact .of_pos hpos _
      · rw [hn, ← Int.cast_one, ← Int.cast_sub, powDefined_int_iff]
        exact fun hneg => hbase.resolve_right (by omega)
    rw [derivative, if_neg (Bool.eq_false_iff.1 hmentions)]
    refine (keeps_simplifyOnce s _).hasValue
      ⟨⟨⟨hb, ha.defined, hpred.1, by rwa [hpred.2]⟩, ha.hasValue.1⟩, ?_⟩
    simp only [real, hpred.2, ha.hasValue.2]

/-- The rule for an exponent that mentions the variable, over a positive base. -/
theorem pow_of_mentions (ha : DerivesAt x s a a') (hb : DerivesAt x s b b')
    (hmentions : b.mentions x = true) (hpos : 0 < a.real s) :
    DerivesAt x s (.pow a b)
      (a.real s ^ b.real s * (b' * Real.log (a.real s) + b.real s * a' / a.real s)) where
  defined := ⟨ha.defined, hb.defined, .of_pos hpos _⟩
  hasDerivAt := by
    have hpos' : 0 < a.real (Function.update s x (s x)) := by rwa [Function.update_eq_self]
    refine (ha.hasDerivAt.rpow hb.hasDerivAt hpos').congr_deriv ?_
    rw [Function.update_eq_self, Real.rpow_sub_one hpos.ne']
    ring
  hasValue := by
    rw [derivative, if_pos hmentions]
    refine (keeps_simplifyOnce s _).hasValue ⟨⟨⟨ha.defined, hb.defined, .of_pos hpos _⟩,
      ⟨hb.hasValue.1, ha.defined, hpos⟩, ⟨hb.defined, ha.hasValue.1⟩, ha.defined, hpos.ne'⟩, ?_⟩
    simp only [real, Fn.real, ha.hasValue.2, hb.hasValue.2]

/-! ## Functions -/

/-- A function of the library follows the chain rule. -/
theorem call {f : Fn} {d : ℝ} (ha : DerivesAt x s a a') (hf : f.DefinedAt (a.real s))
    (hd : HasDerivAt f.real d (a.real s))
    (hvalue : (derivative x (.call f a)).HasValue s (a' * d)) :
    DerivesAt x s (.call f a) (a' * d) where
  defined := ⟨ha.defined, hf⟩
  hasDerivAt := by
    have hd' : HasDerivAt f.real d (a.real (Function.update s x (s x))) := by
      rwa [Function.update_eq_self]
    exact (hd'.comp (s x) ha.hasDerivAt).congr_deriv (mul_comm _ _)
  hasValue := hvalue

theorem hasValue_chainRule {outer u : Expr} {d : ℝ} (houter : outer.HasValue s d)
    (hu : u.HasValue s a') : (chainRule outer u).HasValue s (a' * d) :=
  (keeps_simplifyOnce s _).hasValue ⟨⟨hu.1, houter.1⟩, by rw [real, hu.2, houter.2]⟩

/-- Every function is differentiated where it is defined. -/
theorem exists_call (f : Fn) (ha : DerivesAt x s a a') (hf : f.DefinedAt (a.real s)) :
    ∃ d, DerivesAt x s (.call f a) d := by
  cases f with
  | sin =>
    have hcos : (Expr.call .cos a).HasValue s (Real.cos (a.real s)) := ⟨⟨ha.defined, trivial⟩, rfl⟩
    exact ⟨_, ha.call hf (Real.hasDerivAt_sin _) (hasValue_chainRule hcos ha.hasValue)⟩
  | cos =>
    have hsin : (Expr.call .sin a).HasValue s (Real.sin (a.real s)) := ⟨⟨ha.defined, trivial⟩, rfl⟩
    have hchain := hasValue_chainRule hsin ha.hasValue
    refine ⟨_, ha.call hf (Real.hasDerivAt_cos _)
      ((keeps_simplifyOnce s _).hasValue ⟨hchain.1, ?_⟩)⟩
    rw [real, hchain.2, mul_neg]
  | tan =>
    have hsquare : (Expr.pow (.call .cos a) (.int 2)).HasValue s (Real.cos (a.real s) ^ 2) :=
      hasValue_square ⟨ha.defined, trivial⟩
    have houter : (Expr.div .one (.pow (.call .cos a) (.int 2))).HasValue s
        (1 / Real.cos (a.real s) ^ 2) := by
      refine ⟨⟨trivial, hsquare.1, ?_⟩, ?_⟩
      · rw [hsquare.2]
        exact pow_ne_zero 2 hf
      · rw [real, real_one, hsquare.2]
    exact ⟨_, ha.call hf (Real.hasDerivAt_tan hf) (hasValue_chainRule houter ha.hasValue)⟩
  | exp =>
    have hexp : (Expr.call .exp a).HasValue s (Real.exp (a.real s)) := ⟨⟨ha.defined, trivial⟩, rfl⟩
    exact ⟨_, ha.call hf (Real.hasDerivAt_exp _) (hasValue_chainRule hexp ha.hasValue)⟩
  | log =>
    have hne : a.real s ≠ 0 := hf.ne'
    refine ⟨_, ha.call hf (Real.hasDerivAt_log hne) ((keeps_simplifyOnce s _).hasValue
      ⟨⟨ha.hasValue.1, ha.defined, hne⟩, ?_⟩)⟩
    rw [real, ha.hasValue.2, div_eq_mul_inv]

end DerivesAt

namespace Expr.Regular

variable {x : String} {s : String → ℝ} {e : Expr}

/-- The derivative is the derivative where the expression is regular. -/
theorem exists_derivesAt (h : e.Regular x s) : ∃ d, DerivesAt x s e d := by
  induction e with
  | var name => exact ⟨_, .var name⟩
  | const c => exact ⟨_, .const c⟩
  | add a b iha ihb =>
    obtain ⟨⟨a', ha⟩, b', hb⟩ := And.intro (iha h.1) (ihb h.2)
    exact ⟨_, ha.add hb⟩
  | sub a b iha ihb =>
    obtain ⟨⟨a', ha⟩, b', hb⟩ := And.intro (iha h.1) (ihb h.2)
    exact ⟨_, ha.sub hb⟩
  | mul a b iha ihb =>
    obtain ⟨⟨a', ha⟩, b', hb⟩ := And.intro (iha h.1) (ihb h.2)
    exact ⟨_, ha.mul hb⟩
  | div a b iha ihb =>
    obtain ⟨⟨a', ha⟩, b', hb⟩ := And.intro (iha h.1) (ihb h.2.1)
    exact ⟨_, ha.div hb h.2.2⟩
  | pow a b iha ihb =>
    obtain ⟨ha, hb, hbase⟩ := h
    obtain ⟨a', ha⟩ := iha ha
    cases hmentions : b.mentions x with
    | true =>
      obtain ⟨b', hb⟩ := ihb hb
      rw [hmentions] at hbase
      exact ⟨_, ha.pow_of_mentions hb hmentions (hbase.resolve_right fun h => nomatch h.1)⟩
    | false => exact ⟨_, ha.pow_of_not_mentions hb.defined hmentions (hbase.imp_right And.right)⟩
  | neg a ih =>
    obtain ⟨a', ha⟩ := ih h
    exact ⟨_, ha.neg⟩
  | call f a ih =>
    obtain ⟨a', ha⟩ := ih h.1
    exact ha.exists_call f h.2

/-- The value is continuous in the variable. -/
theorem tendsto (h : e.Regular x s) :
    Tendsto (fun t => e.real (Function.update s x t)) (𝓝 (s x)) (𝓝 (e.real s)) := by
  obtain ⟨d, hd⟩ := h.exists_derivesAt
  simpa only [ContinuousAt, Function.update_eq_self] using hd.hasDerivAt.continuousAt

/-- An expression is regular around a point where it is. -/
theorem eventually (h : e.Regular x s) : ∀ᶠ t in 𝓝 (s x), e.Regular x (Function.update s x t) := by
  induction e with
  | var name | const c => exact .of_forall fun _ => trivial
  | add a b iha ihb | sub a b iha ihb | mul a b iha ihb => exact (iha h.1).and (ihb h.2)
  | div a b iha ihb =>
    have hne : ∀ᶠ t in 𝓝 (s x), b.real (Function.update s x t) ≠ 0 :=
      h.2.1.tendsto.eventually_ne h.2.2
    filter_upwards [iha h.1, ihb h.2.1, hne] with t ha hb hne
    exact ⟨ha, hb, hne⟩
  | pow a b iha ihb =>
    obtain ⟨ha, hb, hbase⟩ := h
    refine ((iha ha).and ((ihb hb).and ?_))
    obtain hpos | ⟨hmentions, n, hn, hne | hone⟩ := hbase
    · exact (ha.tendsto.eventually_const_lt hpos).mono fun t ht => .inl ht
    · refine (ha.tendsto.eventually_ne hne).mono fun t ht => .inr ⟨hmentions, n, ?_, .inl ht⟩
      rw [real_update_of_not_mentions hmentions, hn]
    · refine .of_forall fun t => .inr ⟨hmentions, n, ?_, .inr hone⟩
      rw [real_update_of_not_mentions hmentions, hn]
  | neg a ih => exact ih h
  | call f a ih => exact (ih h.1).and (h.1.tendsto.eventually (f.eventually_definedAt h.2))

end Expr.Regular

/-- At a regular point, around which the expression has values, its symbolic derivative has a value
and the value is the derivative.  The same holds of the simplified derivative, which the built-in
engine gives. -/
theorem derivative_is_derivative {x : String} {s : String → ℝ} {e : Expr} (h : e.Regular x s) :
    (∀ᶠ t in 𝓝 (s x), e.Defined (Function.update s x t)) ∧
      ∃ d, HasDerivAt (fun t => e.real (Function.update s x t)) d (s x) ∧
        (derivative x e).HasValue s d ∧
        ∃ e', (Engine.exact.differentiate e x).run = .ok e' ∧ e'.HasValue s d := by
  obtain ⟨d, hd⟩ := h.exists_derivesAt
  exact ⟨h.eventually.mono fun t ht => ht.defined, d, hd.hasDerivAt, hd.hasValue, _, rfl,
    (keeps_simplify s _).hasValue hd.hasValue⟩

/-- The quotient of `Q ^ 2` and `Q - 1` at `-3`, where the base of the power is negative. -/
theorem derivative_is_derivative_of_quotient :
    let s : String → ℝ := fun _ => -3
    let e : Expr := .div (.pow (.var "Q") (.const 2)) (.sub (.var "Q") .one)
    e.Regular "Q" s ∧ (∀ᶠ t in 𝓝 (-3 : ℝ), e.Defined (Function.update s "Q" t)) ∧
      ∃ d, HasDerivAt (fun t => e.real (Function.update s "Q" t)) d (-3) ∧
        (derivative "Q" e).HasValue s d ∧
        ∃ e', (Engine.exact.differentiate e "Q").run = .ok e' ∧ e'.HasValue s d := by
  intro s e
  have hregular : e.Regular "Q" s :=
    ⟨⟨trivial, trivial, .inr ⟨rfl, 2, by norm_num [real], .inl (by norm_num [real, s])⟩⟩,
      ⟨trivial, trivial⟩, by norm_num [real, s]⟩
  exact ⟨hregular, derivative_is_derivative hregular⟩

end MarketAlgebra
