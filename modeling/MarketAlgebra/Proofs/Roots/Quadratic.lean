import Mathlib.Algebra.QuadraticDiscriminant
import MarketAlgebra.Proofs.Poly.RealRoots
import MarketAlgebra.Proofs.Simplify.Pass
import MarketAlgebra.Roots.Quadratic

/-!
# Exact roots

The expressions that are listed for a linear or a quadratic polynomial denote its real roots, each
one once (`denotes_linearRoot` and `denotes_quadraticRoots`).  A surd keeps its value while square
factors are pulled out (`SurdForm.square_ofNat`), and its expression keeps it while it is
simplified.
-/

namespace MarketAlgebra

open Polynomial

/-! ## Surds -/

namespace SurdForm

/-- The natural whose square root the form denotes. -/
def square (s : SurdForm) : Nat := s.outside * s.outside * s.inside

theorem square_pull (k : Nat) (s : SurdForm) : (s.pull k).square = s.square := by
  fun_induction pull k s with
  | case1 s h _ ih =>
    obtain ⟨m, hm⟩ := Nat.dvd_of_mod_eq_zero h.2.2
    have hpos : 0 < k * k := Nat.mul_pos (by omega) (by omega)
    rw [ih, square, square, hm, Nat.mul_div_cancel_left m hpos]
    ring
  | case2 s h => rfl

theorem square_pullFrom (k : Nat) (s : SurdForm) : (s.pullFrom k).square = s.square := by
  fun_induction pullFrom k s with
  | case1 k s h ih => rw [ih, square_pull]
  | case2 k s h => rfl

/-- Square factors are pulled out without changing the square root. -/
theorem square_ofNat (n : Nat) : (ofNat n).square = n := by
  rw [ofNat]
  split
  case isTrue h => rw [square, Nat.mul_one, h]
  case isFalse => rw [square_pullFrom, square, Nat.one_mul, Nat.one_mul]

end SurdForm

/-! ## Lists of exact roots -/

/-- The value of an expression without variables. -/
noncomputable def Expr.value (e : Expr) : ℝ := e.real fun _ => 0

@[simp] theorem Expr.value_const (c : Rat) : (Expr.const c).value = c := rfl

namespace Roots

variable {p : Poly} {es : List Expr}

/-- The expressions denote the real roots of a polynomial, each one once. -/
structure Denotes (p : Poly) (es : List Expr) : Prop where
  hasValue : ∀ e ∈ es, ∀ s, e.HasValue s e.value
  nodup : (es.map Expr.value).Nodup
  mem_iff : ∀ a : ℝ, a ∈ es.map Expr.value ↔ p.real.eval a = 0

/-- The expressions are as many as the roots. -/
theorem Denotes.length_eq (hp : p.toPolynomial ≠ 0) (h : Denotes p es) :
    es.length = p.realRoots.card := by
  have hroots : p.realRoots = (es.map Expr.value).toFinset := by
    ext a
    rw [Poly.mem_realRoots hp, List.mem_toFinset, h.mem_iff]
  rw [hroots, List.toFinset_card_of_nodup h.nodup, List.length_map]

/-- The value at a point, from the coefficients. -/
theorem eval_real_eq_sum {n : Nat} (hn : p.size = n + 1) (a : ℝ) :
    p.real.eval a = ∑ i ∈ Finset.range (n + 1), (p.coeff i : ℝ) * a ^ i := by
  have hp : p.toPolynomial ≠ 0 := mt Poly.size_eq_zero.2 (by omega)
  have hdegree : p.real.natDegree < n + 1 := by
    rw [Poly.real, natDegree_map, ← hn, Poly.size_eq hp]
    exact Nat.lt_succ_self _
  rw [eval_eq_sum_range' hdegree]
  refine Finset.sum_congr rfl fun i _ => ?_
  rw [Poly.real, coeff_map, ← Poly.coeff_eq]
  rfl

/-- The leading coefficient is not zero. -/
theorem coeff_ne_zero {n : Nat} (hn : p.size = n + 1) : p.coeff n ≠ 0 := by
  have hp : p.toPolynomial ≠ 0 := mt Poly.size_eq_zero.2 (by omega)
  have hdegree : p.toPolynomial.natDegree = n := by
    have := Poly.size_eq hp
    omega
  rw [Poly.coeff_eq, ← hdegree]
  exact leadingCoeff_ne_zero.2 hp

theorem hasValue_const (c : Rat) (s : String → ℝ) :
    (Expr.const c).HasValue s (Expr.const c).value :=
  ⟨trivial, rfl⟩

/-- A constant polynomial other than zero has no roots. -/
theorem denotes_nil (hn : p.size = 1) : Denotes p [] := by
  refine ⟨by simp, List.nodup_nil, fun a => ?_⟩
  have hcoeff : (p.coeff 0 : ℝ) ≠ 0 := Rat.cast_ne_zero.2 (coeff_ne_zero hn)
  rw [eval_real_eq_sum hn]
  simpa using hcoeff

/-- The root of a linear polynomial. -/
theorem denotes_linearRoot (hn : p.size = 2) : Denotes p [(linearRoot p).1] := by
  have hcoeff : (p.coeff 1 : ℝ) ≠ 0 := Rat.cast_ne_zero.2 (coeff_ne_zero hn)
  refine ⟨fun e he s => ?_, List.nodup_singleton _, fun a => ?_⟩
  · rw [List.mem_singleton.1 he]
    exact hasValue_const _ s
  · rw [eval_real_eq_sum hn, List.map_singleton, List.mem_singleton, linearRoot, approximated,
      Expr.value_const, Rat.cast_div, Rat.cast_neg, eq_div_iff hcoeff, Finset.sum_range_succ,
      Finset.sum_range_one, pow_zero, pow_one, mul_one]
    constructor <;> intro h <;> linarith

/-! ## Quadratic polynomials -/

/-- The expression of a surd has its value. -/
theorem hasValue_surdRoot (center offset : Rat) {inside : Nat} (h : 0 < inside)
    (s : String → ℝ) : (surdRoot center offset inside).1.HasValue s
      (center + offset * Real.sqrt inside) := by
  have hpos : (0 : ℝ) < ((inside : Rat) : ℝ) := by exact_mod_cast h
  have hhalf : ((1 / 2 : Rat) : ℝ) = 1 / 2 := by norm_num
  have hexact : (Expr.add (.const center) (.mul (.const offset) (.sqrt (.const inside)))).HasValue s
      (center + offset * Real.sqrt inside) := by
    refine ⟨⟨trivial, trivial, trivial, trivial, .of_pos hpos _⟩, ?_⟩
    simp only [Expr.real, Expr.sqrt]
    rw [hhalf, Real.sqrt_eq_rpow, Rat.cast_natCast]
  exact (keeps_simplify s _).hasValue hexact

/-- Two different expressions of values on both sides of the center. -/
theorem denotes_pair {d e : Expr} {a b c w : ℝ} (ha : a ≠ 0) (hw : 0 < w)
    (hdisc : discrim a b c = 2 * a * w * (2 * a * w))
    (heval : ∀ x : ℝ, p.real.eval x = a * (x * x) + b * x + c)
    (hd : ∀ s, d.HasValue s (-b / (2 * a) - w)) (he : ∀ s, e.HasValue s (-b / (2 * a) + w)) :
    Denotes p [d, e] := by
  have hvd : d.value = -b / (2 * a) - w := (hd _).2
  have hve : e.value = -b / (2 * a) + w := (he _).2
  refine ⟨fun g hg s => ?_, ?_, fun x => ?_⟩
  · rcases List.mem_pair.1 hg with rfl | rfl
    · rw [hvd]
      exact hd s
    · rw [hve]
      exact he s
  · rw [List.map_cons, List.map_singleton, List.nodup_cons, List.mem_singleton, hvd, hve]
    exact ⟨by linarith, List.nodup_singleton _⟩
  · have hplus : (-b + 2 * a * w) / (2 * a) = -b / (2 * a) + w := by field_simp
    have hminus : (-b - 2 * a * w) / (2 * a) = -b / (2 * a) - w := by field_simp
    rw [heval, quadratic_eq_zero_iff ha hdisc, hplus, hminus, List.map_cons, List.map_singleton,
      List.mem_pair, hvd, hve, or_comm]

/-- The surd of a positive rational is positive, and its square is the rational. -/
theorem surd_sq {d : Rat} (hd : 0 < d) :
    0 < (SurdForm.ofNat (d.num.toNat * d.den)).outside ∧
      0 < (SurdForm.ofNat (d.num.toNat * d.den)).inside ∧
      ((SurdForm.ofNat (d.num.toNat * d.den)).outside / d.den *
        Real.sqrt (SurdForm.ofNat (d.num.toNat * d.den)).inside) ^ 2 = (d : ℝ) := by
  have hsquare := SurdForm.square_ofNat (d.num.toNat * d.den)
  generalize SurdForm.ofNat (d.num.toNat * d.den) = t at hsquare ⊢
  have hnum : 0 < d.num := Rat.num_pos.2 hd
  have hpos : 0 < t.outside * t.outside * t.inside := by
    rw [SurdForm.square] at hsquare
    rw [hsquare]
    exact Nat.mul_pos (by omega) d.den_pos
  refine ⟨Nat.pos_of_ne_zero fun h => ?_, Nat.pos_of_mul_pos_left hpos, ?_⟩
  · rw [h] at hpos
    omega
  · have hcast : (t.outside * t.outside * t.inside : ℝ) = d.num * d.den := by
      have htoNat : (d.num.toNat : ℤ) = d.num := Int.toNat_of_nonneg hnum.le
      have hint : ((t.square : ℕ) : ℤ) = d.num * d.den := by rw [hsquare, Nat.cast_mul, htoNat]
      exact_mod_cast hint
    have hden : (d.den : ℝ) ≠ 0 := Nat.cast_ne_zero.2 d.den_nz
    rw [mul_pow, Real.sq_sqrt (Nat.cast_nonneg _), Rat.cast_def, div_pow, div_mul_eq_mul_div, sq,
      hcast]
    field_simp

/-- Half the distance of the two roots: it is positive, and its square times `4 a ^ 2` is the
discriminant. -/
theorem halfWidth_sq {a d w : Rat} {surd : SurdForm} (ha : a ≠ 0) (hd : 0 < d)
    (hsurd : surd = SurdForm.ofNat (d.num.toNat * d.den))
    (hw : w = mkRat surd.outside d.den / (2 * a).abs) :
    0 < surd.inside ∧ 0 < w * Real.sqrt surd.inside ∧
      (d : ℝ) = 2 * a * (w * Real.sqrt surd.inside) * (2 * a * (w * Real.sqrt surd.inside)) := by
  obtain ⟨houtside, hinside, hsq⟩ := surd_sq hd
  rw [← hsurd] at houtside hinside hsq
  have ha' : (a : ℝ) ≠ 0 := Rat.cast_ne_zero.2 ha
  have habs : 0 < |2 * (a : ℝ)| := abs_pos.2 (mul_ne_zero two_ne_zero ha')
  have hwidth : (w : ℝ) = surd.outside / d.den / |2 * (a : ℝ)| := by
    rw [hw, Rat.mkRat_eq_div, Poly.rat_abs_eq]
    push_cast
    rfl
  refine ⟨hinside, ?_, ?_⟩
  · have hout : (0 : ℝ) < surd.outside := Nat.cast_pos.2 houtside
    have hin : (0 : ℝ) < surd.inside := Nat.cast_pos.2 hinside
    have hden : (0 : ℝ) < d.den := Nat.cast_pos.2 d.den_pos
    rw [hwidth]
    positivity
  · have hfactor : |2 * (a : ℝ)| * (w * Real.sqrt surd.inside) =
        surd.outside / d.den * Real.sqrt surd.inside := by
      rw [hwidth, ← mul_assoc, mul_div_cancel₀ _ habs.ne']
    rw [← hsq, ← hfactor, mul_pow, sq_abs, ← mul_pow, sq]

/-- The roots of a quadratic polynomial. -/
theorem denotes_quadraticRoots (hn : p.size = 3) :
    Denotes p ((quadraticRoots p).map (·.1)) := by
  have ha : (p.coeff 2 : ℝ) ≠ 0 := Rat.cast_ne_zero.2 (coeff_ne_zero hn)
  have heval : ∀ x : ℝ,
      p.real.eval x = p.coeff 2 * (x * x) + p.coeff 1 * x + p.coeff 0 := by
    intro x
    rw [eval_real_eq_sum hn, Finset.sum_range_succ, Finset.sum_range_succ, Finset.sum_range_one]
    ring
  obtain ⟨d, hd⟩ : ∃ d, d = p.coeff 1 * p.coeff 1 - 4 * p.coeff 2 * p.coeff 0 := ⟨_, rfl⟩
  obtain ⟨center, hcenter⟩ : ∃ c, c = -p.coeff 1 / (2 * p.coeff 2) := ⟨_, rfl⟩
  have hdisc : discrim (p.coeff 2 : ℝ) (p.coeff 1) (p.coeff 0) = d := by
    rw [discrim, hd]
    push_cast
    ring
  have hcenter' : (center : ℝ) = -p.coeff 1 / (2 * p.coeff 2) := by
    rw [hcenter]
    push_cast
    rfl
  rw [quadraticRoots, ← hd, ← hcenter]
  split_ifs with hneg hzero
  · refine ⟨by simp, List.nodup_nil, fun x => ?_⟩
    rw [heval, List.map_nil, List.map_nil, List.mem_nil_iff, false_iff]
    refine quadratic_ne_zero_of_discrim_ne_sq (fun t ht => ?_) x
    rw [hdisc] at ht
    have hnonneg : (0 : ℝ) ≤ d := ht ▸ sq_nonneg t
    exact absurd hneg (not_lt.2 (by exact_mod_cast hnonneg))
  · refine ⟨fun e he s => ?_, List.nodup_singleton _, fun x => ?_⟩
    · rw [List.map_singleton, List.mem_singleton] at he
      rw [he]
      exact hasValue_const _ s
    · rw [heval, quadratic_eq_zero_iff_of_discrim_eq_zero ha (by rw [hdisc, hzero, Rat.cast_zero]),
        List.map_singleton, List.map_singleton, List.mem_singleton, approximated, Expr.value_const,
        hcenter']
  · have hd' : 0 < d := lt_of_le_of_ne (not_lt.1 hneg) (Ne.symm hzero)
    dsimp only
    obtain ⟨surd, hsurd⟩ : ∃ t, t = SurdForm.ofNat (d.num.toNat * d.den) := ⟨_, rfl⟩
    obtain ⟨w, hw⟩ : ∃ w, w = mkRat surd.outside d.den / (2 * p.coeff 2).abs := ⟨_, rfl⟩
    obtain ⟨hinside, hpos, hsquare⟩ := halfWidth_sq (coeff_ne_zero hn) hd' hsurd hw
    rw [← hdisc] at hsquare
    rw [← hsurd, ← hw]
    split
    case isTrue hone =>
      rw [hone, Nat.cast_one, Real.sqrt_one, mul_one] at hpos hsquare
      refine denotes_pair ha hpos hsquare heval (fun s => ⟨trivial, ?_⟩) fun s => ⟨trivial, ?_⟩
      · rw [approximated, Expr.real_const, Rat.cast_sub, hcenter']
      · rw [approximated, Expr.real_const, Rat.cast_add, hcenter']
    case isFalse =>
      refine denotes_pair ha hpos hsquare heval (fun s => ?_) fun s => ?_
      · have h := hasValue_surdRoot center (-w) hinside s
        rwa [Rat.cast_neg, neg_mul, ← sub_eq_add_neg, hcenter'] at h
      · rw [← hcenter']
        exact hasValue_surdRoot center w hinside s

end Roots

end MarketAlgebra
