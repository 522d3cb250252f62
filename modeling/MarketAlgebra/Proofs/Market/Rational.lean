import Mathlib.Tactic.Linarith
import Mathlib.Tactic.NormNum
import MarketAlgebra.Proofs.Integral
import MarketAlgebra.Proofs.Market.Computation
import MarketAlgebra.Proofs.Number.Nearest

/-!
# Rational markets

Where the solutions of `MR = MC` and the values of a market at them are rational, the computation
gives each value as a rational constant with its nearest float.  Rational roots in order are the
solutions (`solve_eq_of_rational`), and a market is evaluated at one of them from four rational
values and the two areas (`evaluated_rational`).
-/

namespace MarketAlgebra.Market

open Polynomial

variable {x : String} {q v : Rat}

/-! ## Solutions -/

/-- A constant of moderate size is evaluated. -/
theorem evaluate_const (h : |v| ≤ 2 ^ 1023) :
    (Expr.const v).evaluate = .ok (Binary64.ofRat v) :=
  if_pos (Binary64.isFinite_ofRat h)

/-- Roots that pass the denominator and have approximations in order are the solutions. -/
theorem solve_eq_of_values {left right : Expr} {f : RationalFunction} (rs : List (Expr × Float))
    (hf : RationalFunction.ofExpr? x (simplify (.sub left right)) = some f)
    (hzero : ¬f.numer.isZero = true) (hroots : Roots.realRoots f.numer = rs.map (·.1))
    (hallowed : ∀ r ∈ rs, Allowed f r.1 = true) (hvalues : ∀ r ∈ rs, r.1.evaluate = .ok r.2)
    (hsorted : rs.Pairwise fun r s => Binary64.notAfter r.2 s.2) (hnodup : (rs.map (·.1)).Nodup) :
    solve left right x = .ok (rs.map (·.1)) := by
  have hfilter : (rs.map (·.1)).filter (Allowed f) = rs.map (·.1) := by
    refine List.filter_eq_self.2 fun e he => ?_
    obtain ⟨r, hr, rfl⟩ := List.mem_map.1 he
    exact hallowed r hr
  have hread := toOption_eq_some_iff.1 hf
  simp only [solve, hread, if_neg hzero, hroots]
  refine bind_eq_ok_iff.2 ⟨rs.map fun r => (r.1, r.2), ?_, ?_⟩
  · change ((rs.map (·.1)).filter (Allowed f)).mapM _ = _
    rw [hfilter]
    exact mapM_map_eq_ok fun r hr => mapError_eq_ok_iff.2 (hvalues r hr)
  · rw [List.map_id'', List.mergeSort_of_pairwise hsorted, eraseReps_eq_self hnodup.isChain]
    · rfl
    · exact fun _ => rfl

/-- Rational roots that are in order and pass the denominator are the solutions. -/
theorem solve_eq_of_rational {left right : Expr} {f : RationalFunction} (rs : List Rat)
    (hf : RationalFunction.ofExpr? x (simplify (.sub left right)) = some f)
    (hzero : ¬f.numer.isZero = true) (hroots : Roots.realRoots f.numer = rs.map .const)
    (hdenom : ∀ a ∈ rs, f.denom.eval a ≠ 0) (hbounded : ∀ a ∈ rs, |a| ≤ 2 ^ 1023)
    (hsorted : rs.Pairwise (· < ·)) : solve left right x = .ok (rs.map .const) := by
  have hmap : (rs.map Roots.approximated).map (·.1) = rs.map .const := by
    rw [List.map_map]
    rfl
  rw [← hmap] at hroots ⊢
  refine solve_eq_of_values _ hf hzero hroots ?_ ?_ ?_ ?_
  · exact List.forall_mem_map.2 fun a ha => (allowed_const_iff a).2 (hdenom a ha)
  · exact List.forall_mem_map.2 fun a ha => evaluate_const (hbounded a ha)
  · exact List.pairwise_map.2 (hsorted.imp fun h => Binary64.notAfter_ofRat h.le)
  · rw [hmap]
    exact (hsorted.imp ne_of_lt).map _ fun a b => mt Expr.const.inj

/-! ## Values -/

/-- The size up to which nothing overflows, in decimals. -/
theorem abs_le_of_le_ten_pow (h : |v| ≤ 10 ^ 250) : |v| ≤ 2 ^ 1023 :=
  calc |v| ≤ 10 ^ 250 := h
    _ ≤ (2 ^ 33) ^ 31 := by norm_num
    _ = 2 ^ 1023 := (pow_mul 2 33 31).symm

/-- A rational constant with its nearest float. -/
def rationalScalar (v : Rat) : Scalar := ⟨.const v, Binary64.ofRat v⟩

theorem ofExpr_of_rational? {e : Expr} (h : e.rational? = some v) (hv : |v| ≤ 2 ^ 1023) :
    Scalar.ofExpr e = .ok (rationalScalar v) :=
  ofExpr_eq_ok_iff.2 ⟨(simplify_of_rational? h).symm, by
    rw [simplify_of_rational? h, evaluate_const hv]
    rfl⟩

theorem ofExpr_const (hv : |v| ≤ 2 ^ 1023) : Scalar.ofExpr (.const v) = .ok (rationalScalar v) :=
  ofExpr_of_rational? rfl hv

theorem rationalScalar_mul {u v : Rat} (h : |u * v| ≤ 2 ^ 1023) :
    (rationalScalar u).mul (rationalScalar v) = .ok (rationalScalar (u * v)) :=
  ofExpr_of_rational? rfl h

theorem rationalScalar_sub {u v : Rat} (h : |u - v| ≤ 2 ^ 1023) :
    (rationalScalar u).sub (rationalScalar v) = .ok (rationalScalar (u - v)) :=
  ofExpr_of_rational? rfl h

/-- The integral of a polynomial from zero to a constant. -/
theorem definiteIntegral_const {e : Expr} {p : Poly} (hp : Poly.ofExpr? x e = some p)
    (hi : p.isIntegrable = true) (hsize : p.integral.size ≤ 2 ^ 32) (hq : |q| ≤ 2 ^ 1023)
    (hzero : q = 0 ∨ (2 ^ 1022)⁻¹ ≤ |q|) (hvalue : |p.integral.eval q| ≤ 2 ^ 1023) :
    definiteIntegral x e .zero (.const q) = .ok (.const (p.integral.eval q)) := by
  have h0 : Expr.zero.evaluate = .ok (Binary64.ofRat 0) := evaluate_const (by simp)
  rw [definiteIntegral_eq hp, h0, evaluate_const hq]
  have hconst := antiderivativeDifference_zero_const x hi hsize q
  rcases hzero with rfl | hne
  · have hsame : (Binary64.ofRat 0 == Binary64.ofRat 0) = true := by
      rw [Binary64.ofRat_zero_beq]
      rfl
    rw [Poly.eval_zero_integral hi]
    simp only [bind, Except.bind, if_pos hsame]
    rfl
  · have hdiffer : ¬(Binary64.ofRat 0 == Binary64.ofRat q) = true := by
      rw [Binary64.beq_zero_ofRat hne]
      exact Bool.false_ne_true
    refine (if_neg hdiffer).trans ?_
    rw [hconst, evaluate_const hvalue, integrated_eq_ok_iff.2 ⟨hi, rfl⟩]
    rfl

/-- The integral of a polynomial of degree one or less. -/
theorem definiteIntegral_affine {e : Expr} {p : Poly} {m k : Rat} (hp : Poly.ofExpr? x e = some p)
    (hpoly : p.toPolynomial = C m * X + C k) (hq : |q| ≤ 2 ^ 1023)
    (hzero : q = 0 ∨ (2 ^ 1022)⁻¹ ≤ |q|) (hvalue : |m / 2 * q ^ 2 + k * q| ≤ 2 ^ 1023) :
    definiteIntegral x e .zero (.const q) = .ok (.const (m / 2 * q ^ 2 + k * q)) := by
  have hi : p.isIntegrable = true := by
    have hdegree : p.toPolynomial.natDegree ≤ 1 := hpoly ▸ natDegree_linear_le
    have hlt : 1 + 1 < Poly.wordSize := by decide
    exact Poly.isIntegrable_iff.2 ((Poly.natDegree_le_iff_size_le.1 hdegree).trans_lt hlt)
  have hintegral : p.integral.toPolynomial = C (m / 2) * X ^ 2 + C k * X := by
    refine Poly.toPolynomial_integral hi ?_ (by simp)
    rw [hpoly]
    simp only [derivative_add, derivative_C_mul, derivative_X_pow, derivative_X]
    rw [← mul_assoc, ← C_mul]
    simp
  have hsize : p.integral.size ≤ 2 ^ 32 := by
    by_cases h0 : p.integral.toPolynomial = 0
    · rw [Poly.size_eq_zero.2 h0]
      norm_num
    · have hdegree : p.integral.toPolynomial.natDegree ≤ 2 := by
        rw [hintegral]
        compute_degree
      rw [Poly.size_eq h0]
      omega
  have heval : p.integral.eval q = m / 2 * q ^ 2 + k * q := by simp [hintegral]
  rw [← heval] at hvalue ⊢
  exact definiteIntegral_const hp hi hsize hq hzero hvalue

/-! ## The equilibrium -/

/-- The equilibrium at the quantity `q` with the price `p`, the cost `t`, the areas `u` under the
demand and `w` under the marginal cost. -/
def rationalEquilibrium (q p t mr mc u w : Rat) : Equilibrium where
  quantity := rationalScalar q
  price := rationalScalar p
  profit := rationalScalar (p * q - t)
  revenue := rationalScalar (p * q)
  cost := rationalScalar t
  marginalRevenue := rationalScalar mr
  marginalCost := rationalScalar mc
  consumerSurplus := rationalScalar (u - p * q)
  producerSurplus := rationalScalar (p * q - w)

/-- A market is evaluated where its values are rational and not too large. -/
theorem evaluated_rational {demand cost : Expr} {p t mr mc u w : Rat}
    (hprice : (demand.substitute x (.const q)).rational? = some p)
    (hcost : (cost.substitute x (.const q)).rational? = some t)
    (hmr : ((modelOf demand cost x).marginalRevenue.substitute x (.const q)).rational? = some mr)
    (hmc : ((modelOf demand cost x).marginalCost.substitute x (.const q)).rational? = some mc)
    (hdemandArea : definiteIntegral x demand .zero (.const q) = .ok (.const u))
    (hcostArea : definiteIntegral x (modelOf demand cost x).marginalCost .zero (.const q) =
      .ok (.const w))
    (hbounded : ∀ v ∈ [q, p, p * q, t, p * q - t, mr, mc, u, w, u - p * q, p * q - w],
      |v| ≤ 2 ^ 1023) :
    Evaluated (modelOf demand cost x) (.const q) (rationalEquilibrium q p t mr mc u w) := by
  have hvar : (Expr.var x).substitute x (.const q) = .const q := if_pos rfl
  have hrevenue : ((Expr.mul demand (.var x)).substitute x (.const q)).rational? =
      some (p * q) := by
    rw [Expr.substitute, hvar, Expr.rational?, hprice]
    rfl
  have hprofit : ((Expr.sub (.mul demand (.var x)) cost).substitute x (.const q)).rational? =
      some (p * q - t) := by
    rw [Expr.substitute, Expr.rational?, hrevenue, hcost]
    rfl
  simp only [List.forall_mem_cons] at hbounded
  obtain ⟨bq, bp, brevenue, bt, bprofit, bmr, bmc, bu, bw, bconsumer, bproducer, -⟩ := hbounded
  exact {
    quantity := ofExpr_const bq
    price := ofExpr_of_rational? hprice bp
    revenue := ofExpr_of_rational? hrevenue brevenue
    cost := ofExpr_of_rational? hcost bt
    profit := ofExpr_of_rational? hprofit bprofit
    marginalRevenue := ofExpr_of_rational? hmr bmr
    marginalCost := ofExpr_of_rational? hmc bmc
    surplus := ⟨rationalScalar (p * q), rationalScalar u, rationalScalar w, .const u, .const w,
      rationalScalar_mul brevenue, hdemandArea, ofExpr_const bu, hcostArea, ofExpr_const bw,
      rationalScalar_sub bconsumer, rationalScalar_sub bproducer⟩ }

end MarketAlgebra.Market
