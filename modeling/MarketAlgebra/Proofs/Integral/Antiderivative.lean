import MarketAlgebra.Integral.Antiderivative
import MarketAlgebra.Proofs.Differentiation
import MarketAlgebra.Proofs.Integral
import MarketAlgebra.Proofs.Poly.NestedPower
import MarketAlgebra.Proofs.Poly.Representation
import MarketAlgebra.Proofs.RationalFunction.Defined

/-!
# Antiderivatives are antiderivatives

`AntiderivesAt` says of a point that the value of one expression has the value of another as its
derivative there.  A point counts where the integrand has a value and the antiderivative is
regular.  The integrand need not have values around it, since a quotient that cancels is integrated
across its gap.

Each rule of integration has a lemma here, and a rule of the program is one of them or, for a
constant over an expression, a step that keeps the value and then one of them.  The main result
(`antiderivative_differentiates_back`) goes through the rules as `antiderivative` tries them.  The
degrees have to be words, because an integrand that is read as a polynomial is forgotten then
(`antiderivative_of_wordPower`).
-/

namespace MarketAlgebra

open MarketAlgebra.Expr Polynomial

/-- A computation in two steps finds something when both do. -/
theorem run_bind_eq_ok_some_iff {α β ε : Type} {a : OptionT (Except ε) α}
    {g : α → OptionT (Except ε) β} {b : β} : (a >>= g).run = .ok (some b) ↔
      ∃ c, a.run = .ok (some c) ∧ (g c).run = .ok (some b) := by
  rw [OptionT.run_bind, Option.elimM, bind_eq_ok_iff]
  constructor
  · rintro ⟨_ | c, hc, h⟩
    · cases h
    · exact ⟨c, hc, h⟩
  · rintro ⟨c, hc, h⟩
    exact ⟨some c, hc, h⟩

theorem map_some_eq_ok_iff {α ε : Type} {a : Except ε α} {b : α} :
    a.map some = .ok (some b) ↔ a = .ok b := by
  cases a with
  | error e => exact iff_of_false nofun nofun
  | ok c =>
    constructor
    · exact fun h => congrArg _ (Option.some.inj (Except.ok.inj h))
    · exact fun h => congrArg (Except.ok ∘ some) (Except.ok.inj h)

theorem antiderivative?_eq_some_iff {x : String} {e F : Expr} :
    antiderivative? x e = some F ↔ (antiderivative x e).run = .ok (some F) := by
  rw [antiderivative?, Option.join_eq_some_iff, toOption_eq_some_iff]

/-- At a point, the derivative of `F` is the value of `e`. -/
def AntiderivesAt (x : String) (s : String → ℝ) (e F : Expr) : Prop :=
  e.Defined s → F.Regular x s →
    HasDerivAt (fun t => F.real (Function.update s x t)) (e.real s) (s x)

namespace AntiderivesAt

variable {x : String} {s : String → ℝ} {a b d e F G : Expr}

/-- Only the value of the integrand counts. -/
theorem of_keeps (hkeeps : Keeps s e d) (h : AntiderivesAt x s d F) : AntiderivesAt x s e F := by
  intro he hF
  obtain ⟨hd, hvalue⟩ := hkeeps he
  rw [← hvalue]
  exact h hd hF

/-! ## Polynomials and constants -/

/-- The integral of a polynomial that has the value of the integrand at the point. -/
theorem integral {p : Poly} (hp : p.isIntegrable = true)
    (h : ∀ v, e.HasValue s v → p.real.eval (s x) = v) :
    AntiderivesAt x s e (p.integral.toExpr x) := by
  intro he _
  have hreal (t : ℝ) :
      (p.integral.toExpr x).real (Function.update s x t) = p.integral.real.eval t := by
    rw [(Poly.hasValue_toExpr x p.integral _).2, Function.update_self]
  simp only [hreal]
  refine (p.integral.real.hasDerivAt (s x)).congr_deriv ?_
  rw [Poly.derivative_real_integral hp]
  exact h _ he.hasValue

/-- An integrand without the variable. -/
theorem of_not_mentions (h : e.mentions x = false) :
    AntiderivesAt x s e (.mul e (.var x)) := by
  intro _ _
  simp only [real, real_update_of_not_mentions h, Function.update_self]
  exact ((hasDerivAt_id' (s x)).const_mul (e.real s)).congr_deriv (mul_one _)

/-! ## Linearity -/

theorem add (ha : AntiderivesAt x s a F) (hb : AntiderivesAt x s b G) :
    AntiderivesAt x s (.add a b) (.add F G) :=
  fun he hF => (ha he.1 hF.1).add (hb he.2 hF.2)

theorem sub (ha : AntiderivesAt x s a F) (hb : AntiderivesAt x s b G) :
    AntiderivesAt x s (.sub a b) (.sub F G) :=
  fun he hF => (ha he.1 hF.1).sub (hb he.2 hF.2)

theorem neg (ha : AntiderivesAt x s a F) : AntiderivesAt x s (.neg a) (.neg F) :=
  fun he hF => HasDerivAt.neg (ha he hF)

theorem const_mul (ha : a.mentions x = false) (hb : AntiderivesAt x s b F) :
    AntiderivesAt x s (.mul a b) (.mul a F) := by
  intro he hF
  simp only [real, real_update_of_not_mentions ha]
  exact (hb he.2 hF.2).const_mul (a.real s)

theorem mul_const (ha : AntiderivesAt x s a F) (hb : b.mentions x = false) :
    AntiderivesAt x s (.mul a b) (.mul b F) :=
  of_keeps (d := .mul b a) (.of_real_eq And.symm (mul_comm _ _)) (const_mul hb ha)

theorem div_const (ha : AntiderivesAt x s a F) (hb : b.mentions x = false) :
    AntiderivesAt x s (.div a b) (.div F b) := by
  intro he hF
  simp only [real, real_update_of_not_mentions hb]
  exact (ha he.1 hF.1).div_const (b.real s)

/-- A constant below the antiderivative undoes a factor of its derivative.  It is not zero where the
antiderivative is regular. -/
theorem div_scale {c : Rat} (hG : e.Defined s → G.Regular x s →
      HasDerivAt (fun t => G.real (Function.update s x t)) (e.real s * c) (s x)) :
    AntiderivesAt x s e (.div G (.const c)) := by
  rintro he ⟨hregular, -, hc⟩
  exact ((hG he hregular).div_const (c : ℝ)).congr_deriv (mul_div_cancel_right₀ _ hc)

/-- A constant over an expression is the constant times the reciprocal, which the program writes
as a power. -/
theorem const_div (ha : a.mentions x = false)
    (hb : AntiderivesAt x s (Simplify.pow b (.int (-1))) F) :
    AntiderivesAt x s (.div a b) (.mul a F) := by
  refine of_keeps (d := .mul a (.pow b (.int (-1)))) ?_
    (const_mul ha (of_keeps (Simplify.keeps_pow s b _) hb))
  rintro ⟨da, db, hne⟩
  refine ⟨⟨da, defined_pow_const_int_iff.2 ⟨db, fun _ => hne⟩⟩, ?_⟩
  have hpower : (Expr.pow b (.int (-1))).real s = b.real s ^ (-1 : ℤ) := real_pow_const_int (-1)
  rw [real, hpower, zpow_neg_one, real, div_eq_mul_inv]

end AntiderivesAt

/-! ## Arguments of the form `k * x + c` -/

namespace Antiderivative

variable {x : String} {s : String → ℝ} {e u n F : Expr} {k m : Rat}

/-- The slope is the derivative, at every point. -/
theorem hasDerivAt_of_slope? (h : slope? x u = some k) (hlt : u.degreeBound < Poly.wordSize)
    (s : String → ℝ) :
    HasDerivAt (fun t => u.real (Function.update s x t)) (k : ℝ) (s x) := by
  obtain ⟨p, hp, h⟩ := Option.bind_eq_some_iff.1 h
  obtain ⟨hdegree, h⟩ := Option.ite_none_right_eq_some.1 h
  obtain rfl := Option.some.inj h
  rw [Poly.degree?_eq, Option.ite_none_left_eq_some, Option.some.injEq] at hdegree
  have hreal (t : ℝ) : u.real (Function.update s x t) = p.real.eval t :=
    (Poly.hasValue_update_of_ofExpr? hp hlt s t).2
  simp only [hreal, Poly.coeff_eq]
  refine (p.real.hasDerivAt (s x)).congr_deriv ?_
  rw [Poly.real, eq_X_add_C_of_natDegree_le_one hdegree.2.le]
  simp

/-- An exponent has the constant that it simplifies to as its value. -/
theorem real_of_constantExponent? (h : constantExponent? n = some m) (hn : n.Defined s) :
    n.real s = m := by
  have hvalue := (keeps_simplify s n hn).2
  rw [eq_const_of_constant? h] at hvalue
  exact hvalue.symm

section

variable (hk : slope? x u = some k) (hlt : u.degreeBound < Poly.wordSize)

include hk hlt

/-- The logarithm is the rule for the exponent `-1`. -/
theorem antiderivesAt_log_div (hn : constantExponent? n = some (-1)) :
    AntiderivesAt x s (.pow u n) (.div (.call .log u) (.const k)) := by
  refine .div_scale fun he hF => ?_
  have hne : u.real (Function.update s x (s x)) ≠ 0 := by
    rw [Function.update_eq_self]
    exact hF.2.ne'
  refine ((hasDerivAt_of_slope? hk hlt s).log hne).congr_deriv ?_
  rw [Function.update_eq_self, real, real_of_constantExponent? hn he.2.1, Rat.cast_neg,
    Rat.cast_one, Real.rpow_neg_one, div_eq_inv_mul]

/-- The power rule. -/
theorem antiderivesAt_pow_div (hn : constantExponent? n = some m) :
    AntiderivesAt x s (.pow u n) (.div (.pow u (.const (m + 1))) (.const (k * (m + 1)))) := by
  refine .div_scale fun he hF => ?_
  have hbase : u.real (Function.update s x (s x)) ≠ 0 ∨ 1 ≤ ((m + 1 : Rat) : ℝ) := by
    rw [Function.update_eq_self]
    obtain ⟨-, -, hpos | ⟨-, j, hj, hne | hone⟩⟩ := hF
    · exact .inl hpos.ne'
    · exact .inl hne
    · rw [real_const] at hj
      exact .inr (by rw [hj]; exact_mod_cast hone)
  refine ((hasDerivAt_of_slope? hk hlt s).rpow_const hbase).congr_deriv ?_
  rw [Function.update_eq_self, real, real_of_constantExponent? hn he.2.1]
  push_cast
  rw [add_sub_cancel_right]
  ring

end

theorem antiderivesAt_ofPower? (hlt : u.degreeBound < Poly.wordSize) (h : ofPower? x u n = some F) :
    AntiderivesAt x s (.pow u n) F := by
  obtain ⟨k, hk, h⟩ := Option.bind_eq_some_iff.1 h
  obtain ⟨m, hm, h⟩ := Option.bind_eq_some_iff.1 h
  split at h
  case isTrue hneg =>
    obtain rfl := Option.some.inj h
    exact antiderivesAt_log_div hk hlt (hneg ▸ hm)
  case isFalse =>
    obtain rfl := Option.some.inj h
    exact antiderivesAt_pow_div hk hlt hm

/-! ## The rules of the program -/

/-- The degree bound of the base of a power or the argument of a function. -/
def argumentBound : Expr → ℕ
  | .pow u _ | .call _ u => u.degreeBound
  | _ => 0

theorem argumentBound_le (e : Expr) : argumentBound e ≤ e.degreeBound := by
  cases e with
  | pow u n => exact degreeBound_le_pow u n
  | call f u => exact le_rfl
  | _ => exact Nat.zero_le _

/-- Merging powers leaves a base that was one before. -/
theorem argumentBound_powConstant_le (e : Expr) (c : Rat) :
    argumentBound (Simplify.powConstant e c) ≤ e.degreeBound := by
  fun_induction Simplify.powConstant e c with
  | case1 => exact Nat.zero_le _
  | case2 => exact argumentBound_le _
  | case3 =>
    rw [Simplify.powConstants]
    split <;> exact Nat.zero_le _
  | case4 c _ _ base m _ ih => exact ih.trans (degreeBound_le_pow base _)
  | case5 => exact le_rfl
  | case6 => exact le_rfl

/-- A power or a function value of an argument with a slope. -/
theorem antiderivesAt_elementary? (hlt : argumentBound e < Poly.wordSize)
    (h : elementary? x e = some F) : AntiderivesAt x s e F := by
  revert h
  fun_cases elementary? x e with
  | case1 =>
    intro h
    cases h
  | case2 u n => exact antiderivesAt_ofPower? hlt
  | case3 u =>
    intro h
    obtain ⟨k, hk, ⟨⟩⟩ := Option.bind_eq_some_iff.1 h
    refine .div_scale fun _ _ => (hasDerivAt_of_slope? hk hlt s).exp.congr_deriv ?_
    rw [Function.update_eq_self]
    rfl
  | case4 u =>
    intro h
    obtain ⟨k, hk, ⟨⟩⟩ := Option.bind_eq_some_iff.1 h
    have hcos : AntiderivesAt x s (.neg (.call .sin u)) (.div (.call .cos u) (.const k)) := by
      refine .div_scale fun _ _ => (hasDerivAt_of_slope? hk hlt s).cos.congr_deriv ?_
      rw [Function.update_eq_self]
      rfl
    exact .of_keeps (d := .neg (.neg (.call .sin u))) (.of_real_eq id (neg_neg _)) hcos.neg
  | case5 u =>
    intro h
    obtain ⟨k, hk, ⟨⟩⟩ := Option.bind_eq_some_iff.1 h
    refine .div_scale fun _ _ => (hasDerivAt_of_slope? hk hlt s).sin.congr_deriv ?_
    rw [Function.update_eq_self]
    rfl
  | case6 u =>
    intro h
    obtain ⟨k, hk, ⟨⟩⟩ := Option.bind_eq_some_iff.1 h
    refine .div_scale fun he _ => ?_
    have hne : u.real s ≠ 0 := he.2.ne'
    have hu := hasDerivAt_of_slope? hk hlt s
    have hlog := hu.log (by rwa [Function.update_eq_self])
    refine ((hu.mul hlog).sub hu).congr_deriv ?_
    simp only [Function.update_eq_self, Fn.real, real]
    field_simp
    ring
  | case7 =>
    intro h
    cases h

/-- A polynomial, or a quotient that cancels down to one. -/
theorem antiderivesAt_polynomial? (hlt : e.degreeBound < Poly.wordSize)
    (h : polynomial? x e = .ok (some F)) : AntiderivesAt x s e F := by
  revert h
  fun_cases polynomial? x e with
  | case1 p hp =>
    intro h
    obtain ⟨hi, rfl⟩ := integrated_eq_ok_iff.1 (map_some_eq_ok_iff.1 h)
    exact .integral hi fun v hv => (Poly.hasValue_of_ofExpr? hp hlt s).unique hv
  | case2 hp f hf hone =>
    intro h
    obtain ⟨hi, rfl⟩ := integrated_eq_ok_iff.1 (map_some_eq_ok_iff.1 h)
    refine .integral hi fun v hv => ?_
    rw [← ((RationalFunction.read_eq_ok_iff.1 hf).hasValue hlt hv).2,
      RationalFunction.value_of_isOne hone]
  | case3 | case4 | case5 =>
    intro h
    cases h

/-- An integrand that is neither a polynomial nor without the variable is left to a rule. -/
theorem antiderivesAt_of_rule {rule : OptionT (Except UndefinedValue) Expr}
    (hlt : e.degreeBound < Poly.wordSize)
    (h : (do
      match ← OptionT.lift (polynomial? x e) with
      | some r => return r
      | none => if !e.mentions x then return .mul e (.var x) else rule).run = .ok (some F))
    (hrule : rule.run = .ok (some F) → AntiderivesAt x s e F) : AntiderivesAt x s e F := by
  obtain ⟨r, hr, h⟩ := run_bind_eq_ok_some_iff.1 h
  rw [OptionT.run_lift] at hr
  cases r with
  | some r =>
    obtain rfl := Option.some.inj (Except.ok.inj h)
    exact antiderivesAt_polynomial? hlt (map_some_eq_ok_iff.1 hr)
  | none =>
    dsimp only at h
    split at h
    case isTrue hmentions =>
      obtain rfl := Option.some.inj (Except.ok.inj h)
      exact .of_not_mentions (by simpa using hmentions)
    case isFalse => exact hrule h

end Antiderivative

open Antiderivative AntiderivesAt in
/-- Whatever rules give an antiderivative, its derivative is the integrand. -/
theorem antiderivesAt_antiderivative {x : String} {s : String → ℝ} {e F : Expr}
    (hlt : e.degreeBound < Poly.wordSize) (h : (antiderivative x e).run = .ok (some F)) :
    AntiderivesAt x s e F := by
  induction e generalizing F with
  | add a b iha ihb =>
    rw [antiderivative] at h
    refine antiderivesAt_of_rule hlt h fun h => ?_
    obtain ⟨F, hF, h⟩ := run_bind_eq_ok_some_iff.1 h
    obtain ⟨G, hG, h⟩ := run_bind_eq_ok_some_iff.1 h
    obtain rfl := Option.some.inj (Except.ok.inj h)
    rw [degreeBound] at hlt
    exact (iha (by omega) hF).add (ihb (by omega) hG)
  | sub a b iha ihb =>
    rw [antiderivative] at h
    refine antiderivesAt_of_rule hlt h fun h => ?_
    obtain ⟨F, hF, h⟩ := run_bind_eq_ok_some_iff.1 h
    obtain ⟨G, hG, h⟩ := run_bind_eq_ok_some_iff.1 h
    obtain rfl := Option.some.inj (Except.ok.inj h)
    rw [degreeBound] at hlt
    exact (iha (by omega) hF).sub (ihb (by omega) hG)
  | neg a ih =>
    rw [antiderivative] at h
    refine antiderivesAt_of_rule hlt h fun h => ?_
    obtain ⟨F, hF, h⟩ := run_bind_eq_ok_some_iff.1 h
    obtain rfl := Option.some.inj (Except.ok.inj h)
    exact (ih hlt hF).neg
  | mul a b iha ihb =>
    rw [antiderivative] at h
    refine antiderivesAt_of_rule hlt h fun h => ?_
    rw [degreeBound] at hlt
    split at h
    case isTrue hmentions =>
      obtain ⟨F, hF, h⟩ := run_bind_eq_ok_some_iff.1 h
      obtain rfl := Option.some.inj (Except.ok.inj h)
      exact const_mul (by simpa using hmentions) (ihb (by omega) hF)
    case isFalse =>
      split at h
      case isTrue hmentions =>
        obtain ⟨F, hF, h⟩ := run_bind_eq_ok_some_iff.1 h
        obtain rfl := Option.some.inj (Except.ok.inj h)
        exact mul_const (iha (by omega) hF) (by simpa using hmentions)
      case isFalse => cases h
  | div a b iha _ =>
    rw [antiderivative] at h
    refine antiderivesAt_of_rule hlt h fun h => ?_
    rw [degreeBound] at hlt
    split at h
    case isTrue hmentions =>
      obtain ⟨F, hF, h⟩ := run_bind_eq_ok_some_iff.1 h
      obtain rfl := Option.some.inj (Except.ok.inj h)
      exact div_const (iha (by omega) hF) (by simpa using hmentions)
    case isFalse =>
      split at h
      case isTrue hmentions =>
        obtain ⟨F, hF, h⟩ := run_bind_eq_ok_some_iff.1 h
        obtain rfl := Option.some.inj (Except.ok.inj h)
        have hbound := argumentBound_powConstant_le b (-1)
        exact const_div (by simpa using hmentions)
          (antiderivesAt_elementary? (hbound.trans_lt (by omega)) (Except.ok.inj hF))
      case isFalse => cases h
  | var | const | pow | call =>
    rw [antiderivative.eq_def] at h
    refine antiderivesAt_of_rule hlt h fun h => ?_
    exact antiderivesAt_elementary? ((argumentBound_le _).trans_lt hlt) (Except.ok.inj h)

/-- An antiderivative differentiates back to the integrand, at every point where the integrand has
a value and the antiderivative is regular, as long as the degrees are words: so do the value of the
antiderivative, as a function of the variable, and its symbolic derivative. -/
theorem antiderivative_differentiates_back {x : String} {s : String → ℝ} {e F : Expr}
    (h : antiderivative? x e = some F) (hlt : e.degreeBound < Poly.wordSize) (he : e.Defined s)
    (hF : F.Regular x s) :
    HasDerivAt (fun t => F.real (Function.update s x t)) (e.real s) (s x) ∧
      (derivative x F).HasValue s (e.real s) := by
  have hderiv := antiderivesAt_antiderivative hlt (antiderivative?_eq_some_iff.1 h) he hF
  obtain ⟨d, hd⟩ := hF.exists_derivesAt
  obtain rfl := hd.hasDerivAt.unique hderiv
  exact ⟨hderiv, hd.hasValue⟩

/-- An exponential with a negative slope less a logarithm, at one. -/
theorem antiderivative_of_exp_and_log_differentiates_back :
    let s : String → ℝ := fun _ => 1
    let u : Expr := .sub .one (.mul (.const 2) (.var "Q"))
    let v : Expr := .add (.var "Q") (.const 2)
    let e : Expr := .sub (.mul (.const 3) (.call .exp u)) (.call .log v)
    let F : Expr := .sub (.mul (.const 3) (.div (.call .exp u) (.const (-2))))
      (.div (.sub (.mul v (.call .log v)) v) .one)
    (antiderivative? "Q" e = some F ∧ e.degreeBound < Poly.wordSize ∧ e.Defined s ∧
      F.Regular "Q" s) ∧
      HasDerivAt (fun t => F.real (Function.update s "Q" t)) (e.real s) (s "Q") ∧
        (derivative "Q" F).HasValue s (e.real s) := by
  intro s u v e F
  have h : antiderivative? "Q" e = some F := by decide +kernel
  have hlt : e.degreeBound < Poly.wordSize := by decide
  have hlog : Fn.DefinedAt .log (v.real s) := by norm_num [Fn.DefinedAt, v, s, real]
  have he : e.Defined s :=
    ⟨⟨trivial, ⟨trivial, trivial, trivial⟩, trivial⟩, ⟨trivial, trivial⟩, hlog⟩
  have hF : F.Regular "Q" s :=
    ⟨⟨trivial, ⟨⟨trivial, trivial, trivial⟩, trivial⟩, trivial, by norm_num⟩,
      ⟨⟨⟨trivial, trivial⟩, ⟨trivial, trivial⟩, hlog⟩, trivial, trivial⟩, trivial, by norm_num⟩
  exact ⟨⟨h, hlt, he, hF⟩, antiderivative_differentiates_back h hlt he hF⟩

/-- The power whose exponent is the number of words is integrated as the constant one.  At zero it
is zero, and the derivative of the result is one. -/
theorem antiderivative_of_wordPower :
    let s : String → ℝ := fun _ => 0
    antiderivative? "Q" Poly.wordPower = some (.var "Q") ∧ Poly.wordPower.HasValue s 0 ∧
      (Expr.var "Q").Regular "Q" s ∧
      HasDerivAt (fun t => (Expr.var "Q").real (Function.update s "Q" t)) 1 (s "Q") := by
  intro s
  have hread := Poly.ofExpr?_eq_some_iff.2 Poly.expands_wordPower
  have hintegral : Antiderivative.integrated "Q" .one = .ok (.var "Q") := by decide +kernel
  have hvalue := Poly.denotes_wordPower.hasValue s
  rw [Polynomial.map_pow, Polynomial.map_X, eval_pow, eval_X, zero_pow Poly.wordSize_pos.ne']
    at hvalue
  refine ⟨?_, hvalue, trivial, ?_⟩
  · rw [antiderivative?_eq_some_iff, antiderivative_of_ofExpr? hread, hintegral]
    rfl
  · simpa only [real, Function.update_self] using hasDerivAt_id' (s "Q")

end MarketAlgebra
