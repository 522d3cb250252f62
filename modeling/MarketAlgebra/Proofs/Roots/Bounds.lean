import MarketAlgebra.Proofs.Poly.Primitive
import MarketAlgebra.Proofs.Poly.RealRoots
import MarketAlgebra.Proofs.Roots.Separation
import MarketAlgebra.Roots.Isolation

/-!
# Where the roots lie

The primitive part of a polynomial has integer coefficients, and its largest one in magnitude, the
`height`, bounds the roots (`abs_lt_rootBound`, `rootBound_le`) and keeps them apart
(`one_le_abs_sub_mul`).  Both bounds are powers of two with exponents that `isolationDepth` exceeds.
-/

namespace MarketAlgebra

open Polynomial

namespace Poly

variable {p : Poly}

/-! ## The primitive part -/

/-- The primitive part has the same roots. -/
theorem isRoot_complex (hp : p.toPolynomial ≠ 0) {a : ℝ} (ha : p.real.eval a = 0) :
    (Roots.complex p.primitive).IsRoot a := by
  have hcontent : (p.contentAndPrimitive.1 : ℝ) ≠ 0 := Rat.cast_ne_zero.2 (content_ne_zero hp)
  have hreal : p.real =
      C (p.contentAndPrimitive.1 : ℝ) * p.primitive.map (Int.castRingHom ℝ) := by
    rw [real, toPolynomial_eq_content_mul, Polynomial.map_mul, map_C, Polynomial.map_map,
      RingHom.ext_int ((algebraMap ℚ ℝ).comp (Int.castRingHom ℚ)) (Int.castRingHom ℝ)]
    rfl
  rw [hreal, eval_mul, eval_C, mul_eq_zero, or_iff_right hcontent] at ha
  have hmap : Roots.complex p.primitive =
      (p.primitive.map (Int.castRingHom ℝ)).map Complex.ofRealHom := by
    rw [Roots.complex, Polynomial.map_map,
      RingHom.ext_int (Complex.ofRealHom.comp (Int.castRingHom ℝ)) (Int.castRingHom ℂ)]
  rw [IsRoot.def, hmap, ← Complex.ofRealHom_eq_coe, eval_map_apply, ha, map_zero]

/-- The primitive part of a separable polynomial is separable. -/
theorem separable_complex (h : p.toPolynomial.Separable) :
    (Roots.complex p.primitive).Separable := by
  have hmap := h.map (f := algebraMap ℚ ℂ)
  rw [toPolynomial_eq_content_mul, Polynomial.map_mul, Polynomial.map_map,
    RingHom.ext_int ((algebraMap ℚ ℂ).comp (Int.castRingHom ℚ)) (Int.castRingHom ℂ)] at hmap
  exact hmap.of_mul_right

/-! ## The height -/

/-- A maximum over a list is bounded where its elements are. -/
theorem foldl_max_le_iff {α β : Type*} [LinearOrder β] (f : α → β) (ts : List α) (e b : β) :
    ts.foldl (fun m t => max m (f t)) e ≤ b ↔ e ≤ b ∧ ∀ t ∈ ts, f t ≤ b := by
  induction ts generalizing e with
  | nil => simp
  | cons t ts ih => rw [List.foldl_cons, ih, max_le_iff, List.forall_mem_cons, and_assoc]

/-- The largest magnitude of a coefficient of the primitive part. -/
def height (p : Poly) : Nat := p.contentAndPrimitive.2.foldl (fun m c => max m c.natAbs) 0

theorem natAbs_coeff_le_height (p : Poly) (n : Nat) : (p.primitive.coeff n).natAbs ≤ p.height := by
  rw [coeff_primitive, List.getD_eq_getElem?_getD]
  cases h : p.contentAndPrimitive.2[n]? with
  | none => exact Nat.zero_le _
  | some c =>
    exact ((foldl_max_le_iff Int.natAbs _ 0 p.height).1 le_rfl).2 c (List.mem_of_getElem? h)

/-- The number of bits of the height. -/
def heightBits (p : Poly) : Nat := p.height.log2 + 1

theorem height_lt (p : Poly) : p.height + 1 ≤ 2 ^ p.heightBits := Nat.lt_log2_self

/-- The coefficients of the primitive part are bounded by a power of two. -/
theorem abs_coeff_primitive (p : Poly) (n : Nat) :
    |(p.primitive.coeff n : ℝ)| + 1 ≤ (2 : ℝ) ^ p.heightBits := by
  have hcoeff := natAbs_coeff_le_height p n
  have hheight := height_lt p
  have hnat : (p.primitive.coeff n).natAbs + 1 ≤ 2 ^ p.heightBits := by omega
  rw [← Int.cast_abs, Int.abs_eq_natAbs]
  exact_mod_cast hnat

/-! ## Terms and coefficients -/

/-- A coefficient that is not zero stands in a term. -/
theorem mem_terms_of_coeff_ne_zero {n : Nat} (h : p.coeff n ≠ 0) : (n, p.coeff n) ∈ p.terms := by
  rw [coeff] at h ⊢
  cases hn : p.terms.lookup n with
  | none => rw [hn] at h; exact absurd rfl h
  | some c =>
    obtain ⟨ss, ts, hsplit, -⟩ := List.lookup_eq_some_iff.1 hn
    rw [hsplit]
    simp

/-- Every term holds a coefficient, since no exponent is repeated. -/
theorem coeff_of_mem_terms {t : Nat × Rat} (h : t ∈ p.terms) : p.coeff t.1 = t.2 := by
  obtain ⟨ss, ts, hsplit⟩ := List.append_of_mem h
  have hdistinct := p.canonical.1
  rw [hsplit, List.pairwise_append] at hdistinct
  have hlookup : p.terms.lookup t.1 = some t.2 := by
    refine List.lookup_eq_some_iff.2 ⟨ss, ts, hsplit, fun s hs => ?_⟩
    have hlt := hdistinct.2.2 s hs t List.mem_cons_self
    exact bne_iff_ne.2 hlt.ne
  rw [coeff, hlookup, Option.getD_some]

end Poly

namespace Roots

variable {p : Poly}

theorem rootBound_eq (p : Poly) : rootBound p =
    p.terms.foldl (fun m t => max m |t.2 / p.leading|) 0 + 1 := by
  simp only [rootBound, Poly.rat_abs_eq, ← max_def_lt]

/-- The quotient of a coefficient by the leading one is less than the bound. -/
theorem abs_div_leading_le (p : Poly) (n : Nat) : |p.coeff n / p.leading| ≤ rootBound p - 1 := by
  have hfold := (Poly.foldl_max_le_iff (fun t : Nat × Rat => |t.2 / p.leading|) p.terms 0
    (rootBound p - 1)).1 (by rw [rootBound_eq, add_sub_cancel_right])
  by_cases h : p.coeff n = 0
  · rw [h, zero_div, abs_zero]
    exact hfold.1
  · exact hfold.2 (n, p.coeff n) (p.mem_terms_of_coeff_ne_zero h)

/-- All real roots lie between the bound and its negation. -/
theorem abs_lt_rootBound (hp : p.toPolynomial ≠ 0) {a : ℝ} (ha : p.real.eval a = 0) :
    |a| < rootBound p := by
  have hcoeff : ∀ i, ‖p.real.coeff i / p.real.leadingCoeff‖ ≤ (rootBound p - 1 : ℚ) := by
    intro i
    have hquot : p.real.coeff i / p.real.leadingCoeff = (p.coeff i / p.leading : ℚ) := by
      rw [Poly.real, coeff_map, leadingCoeff_map, ← Poly.coeff_eq, ← Poly.leading_eq, Rat.cast_div]
      rfl
    rw [hquot, Real.norm_eq_abs]
    exact_mod_cast abs_div_leading_le p i
  have hlt := norm_lt_of_isRoot (mt p.real_eq_zero_iff.1 hp) hcoeff ha
  rw [Real.norm_eq_abs] at hlt
  push_cast at hlt
  linarith

/-- The bound is at most a power of two. -/
theorem rootBound_le (hp : p.toPolynomial ≠ 0) : rootBound p ≤ 2 ^ p.heightBits := by
  have hlead : p.primitive.leadingCoeff ≠ 0 := leadingCoeff_ne_zero.2 (p.primitive_ne_zero hp)
  have hquot : ∀ n, |p.coeff n / p.leading| ≤ p.height := by
    intro n
    have hratio : p.coeff n / p.leading =
        (p.primitive.coeff n : ℚ) / (p.primitive.leadingCoeff : ℚ) := by
      rw [p.leading_eq, leadingCoeff, ← p.natDegree_primitive hp, p.coeff_eq,
        p.toPolynomial_eq_content_mul, coeff_C_mul, coeff_C_mul, coeff_map, coeff_map,
        mul_div_mul_left _ _ (p.content_ne_zero hp)]
      rfl
    have hone : (1 : ℚ) ≤ |(p.primitive.leadingCoeff : ℚ)| := by
      exact_mod_cast Int.one_le_abs hlead
    rw [hratio, abs_div]
    refine (div_le_self (abs_nonneg _) hone).trans ?_
    rw [← Int.cast_abs, Int.abs_eq_natAbs]
    exact_mod_cast p.natAbs_coeff_le_height n
  have hfold : p.terms.foldl (fun m t => max m |t.2 / p.leading|) 0 ≤ (p.height : ℚ) := by
    refine (Poly.foldl_max_le_iff _ _ _ _).2 ⟨Nat.cast_nonneg _, fun t ht => ?_⟩
    rw [← p.coeff_of_mem_terms ht]
    exact hquot t.1
  have hheight : (p.height : ℚ) + 1 ≤ 2 ^ p.heightBits := by exact_mod_cast p.height_lt
  rw [rootBound_eq]
  linarith

/-- The number of binary places to which the distance of two roots is not zero. -/
noncomputable def separationBits (p : Poly) : Nat :=
  (p.heightBits + 1) * (p.toPolynomial.natDegree ^ 2 + p.toPolynomial.natDegree)

/-- Different real roots are apart. -/
theorem one_le_abs_sub_mul (h : p.toPolynomial.Separable) {a b : ℝ} (ha : p.real.eval a = 0)
    (hb : p.real.eval b = 0) (hab : a ≠ b) :
    1 ≤ |a - b| * 2 ^ separationBits p := by
  have hp : p.toPolynomial ≠ 0 := h.ne_zero
  have hne : (a : ℂ) ≠ b := by exact_mod_cast hab
  have hdist := one_le_dist_mul_pow (p.primitive_ne_zero hp) p.abs_coeff_primitive
    (p.separable_complex h) (p.isRoot_complex hp ha) (p.isRoot_complex hp hb) hne
  rw [p.natDegree_primitive hp, ← Complex.ofReal_sub, Complex.norm_real, Real.norm_eq_abs,
    ← pow_succ', ← pow_mul] at hdist
  exact hdist

end Roots

end MarketAlgebra
