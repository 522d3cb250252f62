import MarketAlgebra.Proofs.Integral.Antiderivative
import MarketAlgebra.Proofs.Number.Nearest
import MarketAlgebra.Proofs.Roots.Accuracy

/-!
# Poles of rational integrands

An integrand that expands to a rational function has its poles where the reduced denominator
vanishes.  What is compared with the bounds is neither the root nor the bound, but the float of a
listed entry and the float of the bound (`reportsPole_iff_between`).  A rational between the bounds
always passes, since rounding keeps the order.  A rational beyond a bound may round to the float of
the bound, and a rational close to a root may lie on the other side of a bound.

Where none of this happens (`Resolved`), a pole is reported exactly when the denominator has a real
root between the bounds (`pole_is_reported_iff`).
-/

namespace MarketAlgebra

open Binary64 DefiniteIntegral Polynomial

variable {x : String} {e lower upper : Expr} {f : RationalFunction} {p : Poly} {a b q r : Rat}

/-! ## Reasons -/

/-- The computation does not fail with a pole as its reason. -/
def NoPole {α : Type} (result : Except UndefinedValue α) : Prop :=
  ∀ x point, result ≠ .error (.pole x point)

namespace NoPole

variable {α β : Type} {result : Except UndefinedValue α} {g : α → Except UndefinedValue β}

theorem ok (value : α) : NoPole (.ok value) := fun _ _ h => nomatch h

theorem bind (h : NoPole result) (hg : ∀ value, NoPole (g value)) : NoPole (result >>= g) := by
  cases result with
  | ok value => exact hg value
  | error why => exact fun x point heq => h x point (congrArg Except.error (Except.error.inj heq))

theorem finite (e : Expr) (value : Float) : NoPole (e.finite value) := by
  rw [Expr.finite]
  split
  · exact .ok value
  · exact fun _ _ h => nomatch h

/-- Evaluation never reports a pole. -/
theorem evalIn (env : String → Option Float) (e : Expr) : NoPole (e.evalIn env) := by
  induction e with
  | var name =>
    rw [Expr.evalIn]
    split
    · exact .finite _ _
    · exact fun _ _ h => nomatch h
  | const c => exact .finite _ _
  | add a b iha ihb | sub a b iha ihb | mul a b iha ihb | pow a b iha ihb =>
    exact iha.bind fun _ => ihb.bind fun _ => .finite _ _
  | div a b iha ihb =>
    refine ihb.bind fun denom => ?_
    split
    · exact fun _ _ h => nomatch h
    · exact iha.bind fun _ => .finite _ _
  | neg a ih => exact ih.bind fun _ => .finite _ _
  | call f a ih =>
    refine ih.bind fun arg => ?_
    cases f with
    | sin | cos | tan | exp => exact .finite _ _
    | log =>
      dsimp only
      split
      · exact fun _ _ h => nomatch h
      · exact .finite _ _

end NoPole

/-- The computation fails only because a divisor has vanished. -/
def FailsVanished {α : Type} (result : Except UndefinedValue α) : Prop :=
  ∀ why, result = .error why → why = .vanishedDivisor

namespace FailsVanished

variable {α β : Type} {result : Except UndefinedValue α}

theorem ok (value : α) : FailsVanished (.ok value) := nofun

theorem map {g : α → β} (h : FailsVanished result) : FailsVanished (result.map g) := by
  cases result with
  | ok value => exact .ok (g value)
  | error why => exact fun _ hmap => h _ (congrArg _ (Except.error.inj hmap))

theorem run_bind {c : OptionT (Except UndefinedValue) α} {g : α → OptionT (Except UndefinedValue) β}
    (hc : FailsVanished c.run) (hg : ∀ value, FailsVanished (g value).run) :
    FailsVanished (c >>= g).run := by
  rw [OptionT.run_bind, Option.elimM]
  cases hrun : c.run with
  | ok found =>
    cases found with
    | some value => exact hg value
    | none => exact .ok none
  | error why => exact fun _ h => hc _ (hrun.trans (congrArg _ (Except.error.inj h)))

theorem integrated (x : String) (p : Poly) : FailsVanished (Antiderivative.integrated x p) := by
  rw [Antiderivative.integrated]
  split
  · exact .ok _
  · exact fun _ h => (Except.error.inj h).symm

theorem polynomial? (x : String) (e : Expr) : FailsVanished (Antiderivative.polynomial? x e) := by
  fun_cases Antiderivative.polynomial? x e with
  | case1 | case2 => exact (integrated x _).map
  | case3 | case4 => exact .ok none
  | case5 => exact fun _ h => (Except.error.inj h).symm

theorem run_rule {rule : OptionT (Except UndefinedValue) Expr} (hrule : FailsVanished rule.run) :
    FailsVanished (do
      match ← OptionT.lift (Antiderivative.polynomial? x e) with
      | some r => return r
      | none => if !e.mentions x then return .mul e (.var x) else rule).run := by
  refine run_bind ?_ fun found => ?_
  · rw [OptionT.run_lift]
    exact (polynomial? x e).map
  · cases found with
    | some r => exact .ok _
    | none =>
      dsimp only
      split
      · exact .ok _
      · exact hrule

/-- The search for an antiderivative fails for no other reason. -/
theorem antiderivative (x : String) (e : Expr) : FailsVanished (antiderivative x e).run := by
  induction e with
  | add a b iha ihb | sub a b iha ihb =>
    rw [MarketAlgebra.antiderivative]
    exact run_rule (run_bind iha fun _ => run_bind ihb fun _ => .ok _)
  | neg a ih =>
    rw [MarketAlgebra.antiderivative]
    exact run_rule (run_bind ih fun _ => .ok _)
  | mul a b iha ihb =>
    rw [MarketAlgebra.antiderivative]
    refine run_rule ?_
    split
    · exact run_bind ihb fun _ => .ok _
    · split
      · exact run_bind iha fun _ => .ok _
      · exact .ok _
  | div a b iha _ =>
    rw [MarketAlgebra.antiderivative]
    refine run_rule ?_
    split
    · exact run_bind iha fun _ => .ok _
    · split
      · exact run_bind (.ok _) fun _ => .ok _
      · exact .ok _
  | var | const | pow | call =>
    rw [MarketAlgebra.antiderivative.eq_def]
    exact run_rule (.ok _)

end FailsVanished

/-- The integral fails, with a pole as the reason. -/
def ReportsPole (x : String) (e lower upper : Expr) : Prop :=
  ∃ point, definiteIntegral x e lower upper = .error (.divergent e lower upper (.pole x point))

/-- A pole is reported when the search finds one. -/
theorem reportsPole_iff {fa fb : Float} {found : Option Float} (ha : lower.evaluate = .ok fa)
    (hb : upper.evaluate = .ok fb) (hne : ¬(fa == fb) = true)
    (hfound : poleBetween? e x fa fb = .ok found) :
    ReportsPole x e lower upper ↔ ∃ point, found = some point := by
  rw [ReportsPole, definiteIntegral, ha, hb]
  simp only [bind, Except.bind, if_neg hne, hfound]
  cases found with
  | some point => exact iff_of_true ⟨point, rfl⟩ ⟨point, rfl⟩
  | none =>
    refine iff_of_false ?_ (by simp)
    rintro ⟨point, h⟩
    cases hanti : (antiderivative x e).run with
    | error why =>
      simp only [hanti] at h
      obtain rfl := FailsVanished.antiderivative x e why hanti
      cases h
    | ok anti =>
      cases anti with
      | some anti =>
        simp only [hanti] at h
        generalize simplify ((simplify (anti.substitute x upper)).sub
          (simplify (anti.substitute x lower))) = value at h
        cases hvalue : value.evaluate with
        | ok v =>
          rw [hvalue] at h
          cases h
        | error why =>
          rw [hvalue] at h
          injection Except.error.inj h with _ _ _ hwhy
          exact NoPole.evalIn _ value x point (hwhy ▸ hvalue)
      | none =>
        simp only [hanti] at h
        split at h
        · cases h
        · split at h <;> cases h

/-! ## The search -/

/-- The float of an expression lies between those of two rationals. -/
def Between (a b : Rat) (e : Expr) : Prop :=
  ∃ v, e.evaluate = .ok v ∧ ofRat a ≤ v ∧ v ≤ ofRat b

theorem exists_rootBetween?_iff :
    (∃ point, rootBetween? p (ofRat a) (ofRat b) = some point) ↔
      ∃ e ∈ Roots.realRoots p, Between a b e := by
  rw [rootBetween?, ← Option.isSome_iff_exists, List.isSome_findSome?, List.any_eq_true]
  refine exists_congr fun e => and_congr_right fun _ => ?_
  rw [Between]
  cases e.evaluate with
  | error why => simp
  | ok v => simp

/-- The bounds are in order, and so are their floats. -/
theorem poleBetween?_eq (hf : RationalFunction.ofExpr? x e = some f) (hab : a ≤ b) :
    poleBetween? e x (ofRat a) (ofRat b) = .ok (rootBetween? f.denom (ofRat a) (ofRat b)) := by
  have hread := toOption_eq_some_iff.1 hf
  rw [poleBetween?, hread]
  simp only [if_pos (ofRat_le_ofRat hab)]

/-- A pole is reported when the float of a listed root lies between those of the bounds. -/
theorem reportsPole_iff_between (hf : RationalFunction.ofExpr? x e = some f)
    (ha : (ofRat a).isFinite = true) (hb : (ofRat b).isFinite = true) (hab : a ≤ b)
    (hne : ¬(ofRat a == ofRat b) = true) : ReportsPole x e (.const a) (.const b) ↔
      ∃ d ∈ Roots.realRoots f.denom, Between a b d := by
  rw [reportsPole_iff (evaluate_const_eq_ok_iff.2 ⟨ha, rfl⟩) (evaluate_const_eq_ok_iff.2 ⟨hb, rfl⟩)
    hne (poleBetween?_eq hf hab), exists_rootBetween?_iff]

/-! ## Rationals -/

/-- A rational beyond a bound has another approximation than the bound. -/
def Apart (a b q : Rat) : Prop := (q < a → Told q a) ∧ (b < q → Told q b)

instance (a b q : Rat) : Decidable (Apart a b q) :=
  inferInstanceAs (Decidable ((q < a → Told q a) ∧ (b < q → Told q b)))

/-- A rational between the bounds always passes. -/
theorem between_const_of_mem (ha : (ofRat a).isFinite = true) (hb : (ofRat b).isFinite = true)
    (h : a ≤ q ∧ q ≤ b) : Between a b (.const q) :=
  ⟨ofRat q, evaluate_const_eq_ok_iff.2 ⟨isFinite_ofRat_of_mem ha hb h, rfl⟩,
    ofRat_le_ofRat h.1, ofRat_le_ofRat h.2⟩

/-- A rational that passes lies between the bounds or rounds to one of them. -/
theorem between_const_iff (ha : (ofRat a).isFinite = true) (hb : (ofRat b).isFinite = true)
    (h : Apart a b q) : Between a b (.const q) ↔ a ≤ q ∧ q ≤ b := by
  refine ⟨?_, between_const_of_mem ha hb⟩
  rintro ⟨v, hv, hav, hvb⟩
  obtain ⟨-, rfl⟩ := evaluate_const_eq_ok_iff.1 hv
  constructor
  · by_contra hlt
    exact hlt ((h.1 (not_le.1 hlt)).ofRat_le_iff.1 hav)
  · by_contra hlt
    exact hlt ((h.2 (not_le.1 hlt)).symm.ofRat_le_iff.1 hvb)

/-! ## Roots -/

open Roots in
/-- No root is confused with a bound.  A rational root beyond a bound rounds to another float.  A
surd has a float, and it lies on the sides of the bounds that the surd lies on.  An approximation is
further away from the bounds than it may be from its root. -/
structure Resolved (p : Poly) (a b : Rat) : Prop where
  rational : ∀ q, .const q ∈ exactRoots p → Apart a b q
  surd : ∀ d ∈ exactRoots p, d.constant? = none → ∃ v, d.evaluate = .ok v ∧
    (ofRat a ≤ v ↔ (a : ℝ) ≤ d.value) ∧ (v ≤ ofRat b ↔ d.value ≤ b)
  apart : ∀ q ∈ approximations p, Apart a b q
  clear : ∀ q ∈ approximations p, tolerance (fullWidth (remaining p)) q < |q - a| ∧
    tolerance (fullWidth (remaining p)) q < |q - b|

namespace Resolved

open Roots

variable (h : Resolved p a b) (ha : (ofRat a).isFinite = true) (hb : (ofRat b).isFinite = true)

include h ha hb

/-- The float of an exact entry lies on the side of the root. -/
theorem between_exact_iff {d : Expr} (hd : d ∈ exactRoots p) :
    Between a b d ↔ (a : ℝ) ≤ d.value ∧ d.value ≤ b := by
  cases hconst : d.constant? with
  | none =>
    obtain ⟨v, hv, hleft, hright⟩ := h.surd d hd hconst
    rw [Between, hv, ← hleft, ← hright]
    simp
  | some q =>
    obtain rfl := Expr.eq_const_of_constant? hconst
    rw [between_const_iff ha hb (h.rational q hd), Expr.value_const, Rat.cast_le, Rat.cast_le]

/-- The float of an approximation lies on the side of the root. -/
theorem between_approximation_iff {t : ℝ} (hq : q ∈ approximations p)
    (hclose : Close (fullWidth (remaining p)) q t) :
    Between a b (.const q) ↔ (a : ℝ) ≤ t ∧ t ≤ b := by
  obtain ⟨hleft, hright⟩ := h.clear q hq
  rw [between_const_iff ha hb (h.apart q hq), (hclose.side hleft).1, (hclose.side hright).2]

/-- Some float lies between those of the bounds exactly when a root lies between the bounds. -/
theorem exists_between_iff (hp : p.toPolynomial ≠ 0) :
    (∃ d ∈ Roots.realRoots p, Between a b d) ↔
      ∃ t, p.real.eval t = 0 ∧ (a : ℝ) ≤ t ∧ t ≤ b := by
  constructor
  · rintro ⟨d, hd, hbetween⟩
    rcases List.mem_append.1 ((mem_realRoots hp).1 hd) with hd | hd
    · exact ⟨d.value, (exact_exactRoots hp).isRoot d hd, (h.between_exact_iff ha hb hd).1 hbetween⟩
    · obtain ⟨q, hq, rfl⟩ := List.mem_map.1 hd
      obtain ⟨t, ht, hclose⟩ := exists_close_root hp hq
      exact ⟨t, ht, (h.between_approximation_iff ha hb hq hclose).1 hbetween⟩
  · rintro ⟨t, ht, hmem⟩
    rcases exists_entry hp ht with ⟨d, hd, rfl⟩ | ⟨q, hq, hclose⟩
    · exact ⟨d, (mem_realRoots hp).2 (List.mem_append_left _ hd),
        (h.between_exact_iff ha hb hd).2 hmem⟩
    · exact ⟨.const q, (mem_realRoots hp).2 (List.mem_append_right _ (List.mem_map_of_mem hq)),
        (h.between_approximation_iff ha hb hq hclose).2 hmem⟩

end Resolved

/-! ## Poles -/

/-- Which poles of a rational integrand are reported.  The floats of the listed roots decide, and
every listed rational between the bounds is found.  Where floats cannot confuse a root with a bound,
a pole is reported exactly when the denominator has a real root between the bounds. -/
theorem pole_is_reported_iff (hf : RationalFunction.ofExpr? x e = some f)
    (ha : (ofRat a).isFinite = true) (hb : (ofRat b).isFinite = true) (hab : a < b)
    (hne : (ofRat a == ofRat b) = false) :
    (ReportsPole x e (.const a) (.const b) ↔ ∃ d ∈ Roots.realRoots f.denom, Between a b d) ∧
    (∀ q, .const q ∈ Roots.realRoots f.denom → a ≤ q ∧ q ≤ b →
      ReportsPole x e (.const a) (.const b)) ∧
    (Resolved f.denom a b → (ReportsPole x e (.const a) (.const b) ↔
      ∃ t : ℝ, f.denom.real.eval t = 0 ∧ (a : ℝ) ≤ t ∧ t ≤ b)) := by
  have hreports := reportsPole_iff_between hf ha hb hab.le (Bool.eq_false_iff.1 hne)
  refine ⟨hreports, fun q hq hmem => ?_, fun hresolved => ?_⟩
  · exact hreports.2 ⟨.const q, hq, between_const_of_mem ha hb hmem⟩
  · rw [hreports]
    exact hresolved.exists_between_iff ha hb (RationalFunction.lowest_ofExpr? hf).denom_ne_zero

/-- The reciprocal of `Q ^ 3 - c`. -/
def cubicReciprocal (c : Rat) : Expr :=
  .div .one (.sub (.pow (.var "Q") (.const 3)) (.const c))

/-- The pole of the reciprocal of `Q ^ 3 - 2` between `1` and `2`. -/
theorem pole_of_cubicReciprocal_is_reported :
    let f : RationalFunction := ⟨.one, Poly.x.pow 3 - .const 2⟩
    (RationalFunction.ofExpr? "Q" (cubicReciprocal 2) = some f ∧ (ofRat 1).isFinite = true ∧
      (ofRat 2).isFinite = true ∧ (1 : Rat) < 2 ∧ (ofRat 1 == ofRat 2) = false ∧
      Resolved f.denom 1 2) ∧
    (ReportsPole "Q" (cubicReciprocal 2) (.const 1) (.const 2) ↔
      ∃ t : ℝ, f.denom.real.eval t = 0 ∧ ((1 : Rat) : ℝ) ≤ t ∧ t ≤ ((2 : Rat) : ℝ)) := by
  intro f
  have hexact : Roots.exactRoots f.denom = [] := by decide +kernel
  have hresolved : Resolved f.denom 1 2 := by
    refine ⟨?_, ?_, by decide +kernel, by decide +kernel⟩
    · rw [hexact]
      exact nofun
    · rw [hexact]
      exact nofun
  have hf : RationalFunction.ofExpr? "Q" (cubicReciprocal 2) = some f := by decide +kernel
  have hne : (ofRat 1 == ofRat 2) = false := by decide
  have ha : (ofRat 1).isFinite = true := by decide
  have hb : (ofRat 2).isFinite = true := by decide
  exact ⟨⟨hf, ha, hb, one_lt_two, hne, hresolved⟩,
    (pole_is_reported_iff hf ha hb one_lt_two hne).2.2 hresolved⟩

/-! ## Roots that are confused with a bound -/

/-- The reciprocal of `Q - c`. -/
def linearReciprocal (c : Rat) : Expr := .div .one (.sub (.var "Q") (.const c))

/-- A rational just below one that rounds to one. -/
def belowOne : Rat := 1 - 1 / 2 ^ 60

/-- A rational just above `1 + 2 ^ -53`, which lies halfway between two floats.  It rounds up. -/
def aboveTie : Rat := 1 + 1 / 2 ^ 53 + 1 / 2 ^ 62

/-- A rational whose cube root is just above `aboveTie`. -/
def cubeAboveTie : Rat := 1 + 193 / 2 ^ 59

theorem ofExpr?_linearReciprocal : RationalFunction.ofExpr? "Q" (linearReciprocal belowOne) =
    some ⟨.one, .x - .const belowOne⟩ := by decide +kernel

theorem ofExpr?_cubicReciprocal : RationalFunction.ofExpr? "Q" (cubicReciprocal cubeAboveTie) =
    some ⟨.one, Poly.x.pow 3 - .const cubeAboveTie⟩ := by decide +kernel

/-- The rational that stands for the cube root lies below `1 + 2 ^ -53` and rounds down. -/
theorem not_reportsPole_cubicReciprocal :
    ¬ReportsPole "Q" (cubicReciprocal cubeAboveTie) (.const aboveTie) (.const 2) := by
  rw [reportsPole_iff_between ofExpr?_cubicReciprocal (by decide +kernel) (by decide +kernel)
    (by decide +kernel) (by decide +kernel)]
  have hroots : Roots.realRoots (Poly.x.pow 3 - .const cubeAboveTie) =
      [.const (166153499473114501550913639713601847 / 166153499473114484112975882535043072)] := by
    decide +kernel
  rintro ⟨d, hd, v, hv, hav, -⟩
  rw [hroots] at hd
  obtain rfl := List.mem_singleton.1 hd
  obtain ⟨-, rfl⟩ := evaluate_const_eq_ok_iff.1 hv
  exact absurd hav (by decide +kernel)

/-- But the cube root lies between the bounds. -/
theorem exists_root_cubicReciprocal :
    ∃ t : ℝ, (Poly.x.pow 3 - .const cubeAboveTie).real.eval t = 0 ∧ (aboveTie : ℝ) ≤ t ∧ t ≤ 2 := by
  have hlower : (Poly.x.pow 3 - .const cubeAboveTie).real.eval (aboveTie : ℝ) ≤ 0 := by
    rw [Poly.eval_real_ratCast, ← Rat.cast_zero, Rat.cast_le]
    decide +kernel
  have hupper : 0 ≤ (Poly.x.pow 3 - .const cubeAboveTie).real.eval ((2 : Rat) : ℝ) := by
    rw [Poly.eval_real_ratCast, ← Rat.cast_zero, Rat.cast_le]
    decide +kernel
  have hle : (aboveTie : ℝ) ≤ ((2 : Rat) : ℝ) := Rat.cast_le.2 (by decide +kernel)
  obtain ⟨t, ht, hroot⟩ := intermediate_value_Icc hle
    (Poly.x.pow 3 - .const cubeAboveTie).real.continuousOn ⟨hlower, hupper⟩
  exact ⟨t, hroot, ht.1, by simpa using ht.2⟩

/-- A pole between the bounds is missed, and a pole before the lower bound is reported. -/
theorem poles_are_confused_with_bounds :
    (¬ReportsPole "Q" (cubicReciprocal cubeAboveTie) (.const aboveTie) (.const 2) ∧
      RationalFunction.ofExpr? "Q" (cubicReciprocal cubeAboveTie) =
        some ⟨.one, Poly.x.pow 3 - .const cubeAboveTie⟩ ∧
      ∃ t : ℝ, (Poly.x.pow 3 - .const cubeAboveTie).real.eval t = 0 ∧
        (aboveTie : ℝ) ≤ t ∧ t ≤ 2) ∧
    ReportsPole "Q" (linearReciprocal belowOne) (.const 1) (.const 2) ∧
      RationalFunction.ofExpr? "Q" (linearReciprocal belowOne) =
        some ⟨.one, .x - .const belowOne⟩ ∧
      ∀ t : ℝ, (Poly.x - .const belowOne).real.eval t = 0 → t < 1 := by
  refine ⟨⟨not_reportsPole_cubicReciprocal, ofExpr?_cubicReciprocal,
    exists_root_cubicReciprocal⟩, ?_, ofExpr?_linearReciprocal, fun t ht => ?_⟩
  case refine_1 =>
    rw [reportsPole_iff_between ofExpr?_linearReciprocal (by decide) (by decide)
      (by decide) (by decide)]
    exact ⟨.const belowOne, by decide +kernel, ofRat belowOne,
      evaluate_const_eq_ok_iff.2 ⟨by decide +kernel, rfl⟩, by decide +kernel, by decide +kernel⟩
  case refine_2 =>
    have hbelow : (belowOne : ℝ) < 1 := by norm_num [belowOne]
    rw [Poly.real_sub, Poly.real_x, Poly.real_const, eval_sub, eval_X, eval_C] at ht
    linarith

end MarketAlgebra
