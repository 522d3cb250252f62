import MarketAlgebra.Integral.Definite
import MarketAlgebra.Proofs.Equation

/-!
# Integrals of polynomial expressions

The integral of an expression that is read as a polynomial is the difference of the values of the
antiderivative at the bounds (`hasValue_definiteIntegral`).  An integral between bounds with the
same approximation is taken to be zero before anything else, so the bounds have to be equal
whenever their approximations are.
-/

namespace MarketAlgebra

variable {x : String} {e lower upper v : Expr} {p : Poly} {c : Rat}

/-- A constant is evaluated to its approximation. -/
theorem evaluate_const_eq_ok_iff {f : Float} : (Expr.const c).evaluate = .ok f ↔
    (Binary64.ofRat c).isFinite = true ∧ Binary64.ofRat c = f := by
  change (if (Binary64.ofRat c).isFinite then Except.ok (Binary64.ofRat c) else _) = _ ↔ _
  split
  case isTrue hfinite => simp [hfinite]
  case isFalse hfinite => simp [hfinite]

theorem integrated_eq_ok_iff {F : Expr} : Antiderivative.integrated x p = .ok F ↔
    p.isIntegrable = true ∧ p.integral.toExpr x = F := by
  rw [Antiderivative.integrated]
  split
  case isTrue h => exact ⟨fun hF => ⟨h, Except.ok.inj hF⟩, fun hF => congrArg _ hF.2⟩
  case isFalse h => exact iff_of_false nofun fun hF => h hF.1

/-- A polynomial is integrated term by term, if every term has an antiderivative. -/
theorem antiderivative_of_ofExpr? (h : Poly.ofExpr? x e = some p) :
    (antiderivative x e).run = (Antiderivative.integrated x p).map some := by
  have hpolynomial : Antiderivative.polynomial? x e =
      (Antiderivative.integrated x p).map some := by rw [Antiderivative.polynomial?, h]
  rw [antiderivative.eq_def, hpolynomial]
  cases Antiderivative.integrated x p <;> rfl

/-- A polynomial has no poles. -/
theorem poleBetween?_of_ofExpr? (h : Poly.ofExpr? x e = some p) (a b : Float) :
    DefiniteIntegral.poleBetween? e x a b = .ok none := by
  have hroots : Roots.realRoots .one = [] := rfl
  have hread := toOption_eq_some_iff.1 (RationalFunction.ofExpr?_eq_ofPoly h)
  rw [DefiniteIntegral.poleBetween?, hread]
  simp only [RationalFunction.ofPoly, DefiniteIntegral.rootBetween?, hroots, List.findSome?_nil]

/-- The difference of the antiderivative at two bounds. -/
def antiderivativeDifference (x : String) (p : Poly) (lower upper : Expr) : Expr :=
  simplify (.sub (simplify ((p.integral.toExpr x).substitute x upper))
    (simplify ((p.integral.toExpr x).substitute x lower)))

/-- The steps in which a polynomial is integrated. -/
theorem definiteIntegral_eq (h : Poly.ofExpr? x e = some p) (lower upper : Expr) :
    definiteIntegral x e lower upper = do
      let a ← lower.evaluate
      let b ← upper.evaluate
      if a == b then return .zero
      let _ ← Antiderivative.integrated x p
      let _ ← (antiderivativeDifference x p lower upper).evaluate.mapError
        (.divergent e lower upper)
      return antiderivativeDifference x p lower upper := by
  simp only [definiteIntegral, poleBetween?_of_ofExpr? h, antiderivative_of_ofExpr? h]
  rw [Antiderivative.integrated]
  split <;> rfl

/-- Between constants the difference is a constant, unless a power is too large to be computed. -/
theorem antiderivativeDifference_const (x : String) {p : Poly} (hp : p.integral.size ≤ 2 ^ 32)
    (a b : Rat) : antiderivativeDifference x p (.const a) (.const b) =
      .const (p.integral.eval b - p.integral.eval a) := by
  have hvalue := fun a : Rat =>
    simplify_of_rational? (Poly.rational?_substitute_toExpr x hp a)
  rw [antiderivativeDifference, hvalue, hvalue]
  exact simplify_of_rational? rfl

theorem antiderivativeDifference_zero_const (x : String) {p : Poly} (hp : p.isIntegrable = true)
    (hsize : p.integral.size ≤ 2 ^ 32) (a : Rat) :
    antiderivativeDifference x p .zero (.const a) = .const (p.integral.eval a) := by
  rw [Expr.zero, antiderivativeDifference_const x hsize, Poly.eval_zero_integral hp, sub_zero]

theorem hasValue_antiderivativeDifference {s : String → ℝ} {a b : ℝ} (x : String) (p : Poly)
    (hlower : lower.HasValue s a) (hupper : upper.HasValue s b) :
    (antiderivativeDifference x p lower upper).HasValue s
      (p.integral.real.eval b - p.integral.real.eval a) := by
  have vl := (keeps_simplify s _).hasValue (Poly.hasValue_substitute_toExpr x p.integral hlower)
  have vu := (keeps_simplify s _).hasValue (Poly.hasValue_substitute_toExpr x p.integral hupper)
  exact (keeps_simplify s _).hasValue ⟨⟨vu.1, vl.1⟩, by rw [Expr.real, vu.2, vl.2]⟩

/-- The integral of a polynomial expression. -/
theorem hasValue_definiteIntegral {s : String → ℝ} {a b : ℝ} (hp : Poly.ofExpr? x e = some p)
    (hlower : lower.HasValue s a) (hupper : upper.HasValue s b)
    (hsame : ∀ fa fb, lower.evaluate = .ok fa → upper.evaluate = .ok fb → (fa == fb) = true → a = b)
    (h : definiteIntegral x e lower upper = .ok v) :
    v.HasValue s (p.integral.real.eval b - p.integral.real.eval a) := by
  rw [definiteIntegral_eq hp] at h
  obtain ⟨fa, ha, h⟩ := bind_eq_ok_iff.1 h
  obtain ⟨fb, hb, h⟩ := bind_eq_ok_iff.1 h
  split at h
  case isTrue hab =>
    obtain rfl := Except.ok.inj h
    rw [hsame fa fb ha hb hab, sub_self]
    exact ⟨trivial, Expr.real_zero⟩
  case isFalse =>
    obtain ⟨_, -, h⟩ := bind_eq_ok_iff.1 h
    obtain ⟨_, -, h⟩ := bind_eq_ok_iff.1 h
    obtain rfl := Except.ok.inj h
    exact hasValue_antiderivativeDifference x p hlower hupper

end MarketAlgebra
