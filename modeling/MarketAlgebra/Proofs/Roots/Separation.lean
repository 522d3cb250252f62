import Mathlib

/-!
# The distance of roots

Two roots of a polynomial with integer coefficients cannot be arbitrarily close together.  The
product of the values of the derivative at all complex roots is, up to a power of the leading
coefficient, the resultant with the derivative.  It is an integer, and not zero when all roots are
simple.  Each factor is bounded from above by the size of the coefficients, and the factor at a root
is small when another root is close to it.  So no other root is too close (`one_le_dist_mul_pow`).
-/

namespace MarketAlgebra.Roots

open Polynomial

variable {F : ℤ[X]} {M : ℝ}

/-- The polynomial over the complex numbers. -/
noncomputable def complex (F : ℤ[X]) : ℂ[X] := F.map (Int.castRingHom ℂ)

theorem complex_ne_zero (hF : F ≠ 0) : complex F ≠ 0 :=
  (Polynomial.map_ne_zero_iff (Int.castRingHom ℂ).injective_int).2 hF

theorem natDegree_complex (F : ℤ[X]) : (complex F).natDegree = F.natDegree :=
  natDegree_map_eq_of_injective (Int.castRingHom ℂ).injective_int F

theorem leadingCoeff_complex (F : ℤ[X]) : (complex F).leadingCoeff = F.leadingCoeff :=
  leadingCoeff_map_of_injective (Int.castRingHom ℂ).injective_int F

theorem norm_intCast (n : ℤ) : ‖(n : ℂ)‖ = |(n : ℝ)| := Complex.norm_intCast n

/-- A nonzero integer is at least one. -/
theorem one_le_norm_leadingCoeff (hF : F ≠ 0) : 1 ≤ ‖(complex F).leadingCoeff‖ := by
  rw [leadingCoeff_complex, norm_intCast]
  exact_mod_cast Int.one_le_abs (leadingCoeff_ne_zero.2 hF)

/-- The product of the derivatives at the roots is an integer up to a power of the leading
coefficient, and it is not zero. -/
theorem one_le_norm_resultant (hsep : (complex F).Separable) :
    1 ≤ ‖(complex F).leadingCoeff‖ ^ (derivative (complex F)).natDegree *
      ‖((complex F).roots.map (derivative (complex F)).eval).prod‖ := by
  set f := complex F with hf
  have hsplits : f.Splits := IsAlgClosed.splits f
  have hprod := resultant_eq_prod_eval f (derivative f) (derivative f).natDegree le_rfl hsplits
  have hne : resultant f (derivative f) ≠ 0 := resultant_ne_zero f (derivative f) hsep
  have hint : resultant f (derivative f) =
      (resultant F (derivative F) f.natDegree (derivative f).natDegree : ℤ) := by
    have hmap : derivative f = (derivative F).map (Int.castRingHom ℂ) :=
      derivative_map F (Int.castRingHom ℂ)
    rw [hmap]
    exact resultant_map_map F (derivative F) _ _ (Int.castRingHom ℂ)
  rw [← norm_pow, ← norm_mul, ← hprod, hint, norm_intCast]
  rw [hint, Int.cast_ne_zero] at hne
  exact_mod_cast Int.one_le_abs hne

/-- The distinct complex roots. -/
noncomputable def complexRoots (F : ℤ[X]) : Finset ℂ := (complex F).roots.toFinset

theorem mem_complexRoots (hF : F ≠ 0) {a : ℂ} : a ∈ complexRoots F ↔ (complex F).IsRoot a := by
  rw [complexRoots, Multiset.mem_toFinset, mem_roots (complex_ne_zero hF)]

theorem card_complexRoots (hsep : (complex F).Separable) : (complexRoots F).card = F.natDegree := by
  rw [complexRoots, Multiset.toFinset_card_of_nodup (nodup_roots hsep),
    ← (IsAlgClosed.splits (complex F)).natDegree_eq_card_roots, natDegree_complex]

/-- With simple roots, the derivative at a root is the leading coefficient times the distances to
the other roots. -/
theorem eval_derivative_root (hsep : (complex F).Separable) {a : ℂ}
    (ha : a ∈ complexRoots F) : (derivative (complex F)).eval a =
      (complex F).leadingCoeff * ∏ b ∈ (complexRoots F).erase a, (a - b) := by
  have hroots : (complexRoots F).val = (complex F).roots := by
    rw [complexRoots, Multiset.toFinset_val, Multiset.dedup_eq_self.2 (nodup_roots hsep)]
  have hfactor : complex F =
      C (complex F).leadingCoeff * Lagrange.nodal (complexRoots F) id := by
    rw [Lagrange.nodal_eq, Finset.prod, hroots]
    exact (IsAlgClosed.splits (complex F)).eq_prod_roots
  have hderiv : derivative (complex F) =
      C (complex F).leadingCoeff * derivative (Lagrange.nodal (complexRoots F) id) := by
    conv_lhs => rw [hfactor]
    exact derivative_C_mul _ _
  rw [hderiv, eval_mul, eval_C]
  congr 1
  have hnode := Lagrange.eval_nodal_derivative_eval_node_eq (v := id) ha
  rw [id] at hnode
  rw [hnode, Lagrange.eval_nodal]
  rfl

/-! ## Bounds from the size of the coefficients -/

/-- A bound for the quotients of the coefficients by the leading one bounds the roots. -/
theorem norm_lt_of_isRoot {K : Type*} [NormedField K] {f : K[X]} (hf : f ≠ 0) {b : ℝ}
    (hb : ∀ i, ‖f.coeff i / f.leadingCoeff‖ ≤ b) {a : K} (ha : f.IsRoot a) : ‖a‖ < b + 1 := by
  have hcauchy : ‖a‖ < cauchyBound f := ha.norm_lt_cauchyBound hf
  refine hcauchy.trans_le ?_
  have hb0 : 0 ≤ b := (norm_nonneg _).trans (hb 0)
  have hlead : 0 < ‖f.leadingCoeff‖ := norm_pos_iff.2 (leadingCoeff_ne_zero.2 hf)
  have hsup : (Finset.range f.natDegree).sup (‖f.coeff ·‖₊) ≤ (b * ‖f.leadingCoeff‖).toNNReal := by
    refine Finset.sup_le fun i _ => NNReal.le_toNNReal_of_coe_le ?_
    rw [coe_nnnorm, ← div_le_iff₀ hlead, ← norm_div]
    exact hb i
  rw [← NNReal.coe_le_coe, Real.coe_toNNReal _ (by positivity), ← div_le_iff₀ hlead] at hsup
  rw [cauchyBound, NNReal.coe_add, NNReal.coe_div, coe_nnnorm, NNReal.coe_one]
  linarith

section

variable (hF : F ≠ 0) (hM : ∀ i, |(F.coeff i : ℝ)| + 1 ≤ M)
include hF hM

/-- The bound is at least two. -/
theorem two_le_bound : 2 ≤ M := by
  have hlead := one_le_norm_leadingCoeff hF
  rw [leadingCoeff_complex, norm_intCast] at hlead
  have := hM F.natDegree
  rw [coeff_natDegree] at this
  linarith

theorem norm_leadingCoeff_le : ‖(complex F).leadingCoeff‖ ≤ 2 * M := by
  have hbound := hM F.natDegree
  rw [coeff_natDegree] at hbound
  rw [leadingCoeff_complex, norm_intCast]
  have := two_le_bound hF hM
  linarith

/-- All roots lie within the bound. -/
theorem norm_root_le {a : ℂ} (ha : (complex F).IsRoot a) : ‖a‖ ≤ M := by
  have hcoeff : ∀ i, ‖(complex F).coeff i / (complex F).leadingCoeff‖ ≤ M - 1 := by
    intro i
    have hbound := hM i
    rw [norm_div]
    refine (div_le_self (norm_nonneg _) (one_le_norm_leadingCoeff hF)).trans ?_
    rw [complex, coeff_map, eq_intCast, norm_intCast]
    linarith
  have hlt := norm_lt_of_isRoot (complex_ne_zero hF) hcoeff ha
  linarith

/-- Two roots are at most twice the bound apart. -/
theorem norm_sub_root_le {a b : ℂ} (ha : (complex F).IsRoot a) (hb : (complex F).IsRoot b) :
    ‖a - b‖ ≤ 2 * M := by
  have hnorm := norm_sub_le a b
  have hra := norm_root_le hF hM ha
  have hrb := norm_root_le hF hM hb
  linarith

/-- A bound for the distances of one root to some others. -/
theorem norm_prod_sub_le {a : ℂ} (ha : (complex F).IsRoot a) {s : Finset ℂ}
    (hs : ∀ b ∈ s, (complex F).IsRoot b) : ‖∏ b ∈ s, (a - b)‖ ≤ (2 * M) ^ s.card := by
  rw [norm_prod, ← Finset.prod_const]
  exact Finset.prod_le_prod (fun _ _ => norm_nonneg _) fun b hb =>
    norm_sub_root_le hF hM ha (hs b hb)

/-- The derivative at a root. -/
theorem norm_eval_derivative_le (hsep : (complex F).Separable) {a : ℂ} (ha : a ∈ complexRoots F) :
    ‖(derivative (complex F)).eval a‖ ≤ (2 * M) ^ F.natDegree := by
  have hbase : 0 ≤ 2 * M := by linarith [two_le_bound hF hM]
  have hlead := norm_leadingCoeff_le hF hM
  have hpos : 0 < F.natDegree := card_complexRoots hsep ▸ Finset.card_pos.2 ⟨a, ha⟩
  have hprod : ‖∏ b ∈ (complexRoots F).erase a, (a - b)‖ ≤
      (2 * M) ^ ((complexRoots F).erase a).card :=
    norm_prod_sub_le hF hM ((mem_complexRoots hF).1 ha) fun b hb =>
      (mem_complexRoots hF).1 (Finset.mem_of_mem_erase hb)
  rw [Finset.card_erase_of_mem ha, card_complexRoots hsep] at hprod
  rw [eval_derivative_root hsep ha, norm_mul]
  calc ‖(complex F).leadingCoeff‖ * ‖∏ b ∈ (complexRoots F).erase a, (a - b)‖
      ≤ 2 * M * (2 * M) ^ (F.natDegree - 1) := by gcongr
    _ = (2 * M) ^ F.natDegree := by rw [← pow_succ', Nat.sub_add_cancel hpos]

/-- The derivative at a root that is close to another one. -/
theorem norm_eval_derivative_le_dist (hsep : (complex F).Separable) {a b : ℂ}
    (ha : a ∈ complexRoots F) (hb : b ∈ complexRoots F) (hab : a ≠ b) :
    ‖(derivative (complex F)).eval a‖ ≤ ‖a - b‖ * (2 * M) ^ F.natDegree := by
  have hbase : 1 ≤ 2 * M := by linarith [two_le_bound hF hM]
  have hlead := norm_leadingCoeff_le hF hM
  have hpos : 0 < F.natDegree := card_complexRoots hsep ▸ Finset.card_pos.2 ⟨a, ha⟩
  have hbs : b ∈ (complexRoots F).erase a := Finset.mem_erase.2 ⟨hab.symm, hb⟩
  have hprod : ‖∏ c ∈ ((complexRoots F).erase a).erase b, (a - c)‖ ≤
      (2 * M) ^ (((complexRoots F).erase a).erase b).card :=
    norm_prod_sub_le hF hM ((mem_complexRoots hF).1 ha) fun c hc =>
      (mem_complexRoots hF).1 (Finset.mem_of_mem_erase (Finset.mem_of_mem_erase hc))
  rw [Finset.card_erase_of_mem hbs, Finset.card_erase_of_mem ha, card_complexRoots hsep] at hprod
  rw [eval_derivative_root hsep ha, ← Finset.mul_prod_erase _ _ hbs, norm_mul, norm_mul]
  calc ‖(complex F).leadingCoeff‖ *
        (‖a - b‖ * ‖∏ c ∈ ((complexRoots F).erase a).erase b, (a - c)‖)
      ≤ 2 * M * (‖a - b‖ * (2 * M) ^ (F.natDegree - 1 - 1)) := by gcongr
    _ = ‖a - b‖ * (2 * M) ^ (F.natDegree - 1 - 1 + 1) := by ring
    _ ≤ ‖a - b‖ * (2 * M) ^ F.natDegree := by
      gcongr
      omega

/-- The product of the derivatives at all roots, of which two are close to each other. -/
theorem norm_prod_derivative_le (hsep : (complex F).Separable) {a b : ℂ}
    (ha : a ∈ complexRoots F) (hb : b ∈ complexRoots F) (hab : a ≠ b) :
    ‖((complex F).roots.map (derivative (complex F)).eval).prod‖ ≤
      ‖a - b‖ * (2 * M) ^ F.natDegree * ((2 * M) ^ F.natDegree) ^ (F.natDegree - 1) := by
  have hval : ((complex F).roots.map (derivative (complex F)).eval).prod =
      ∏ c ∈ complexRoots F, (derivative (complex F)).eval c := by
    rw [Finset.prod, complexRoots, Multiset.toFinset_val,
      Multiset.dedup_eq_self.2 (nodup_roots hsep)]
  have hrest := Finset.prod_le_prod
    (fun c _ => norm_nonneg ((derivative (complex F)).eval c))
    (fun c hc => norm_eval_derivative_le hF hM hsep
      (Finset.mem_of_mem_erase (s := complexRoots F) (a := a) hc))
  rw [Finset.prod_const, Finset.card_erase_of_mem ha, card_complexRoots hsep] at hrest
  have hclose := norm_eval_derivative_le_dist hF hM hsep ha hb hab
  have hnonneg : 0 ≤ M := by linarith [two_le_bound hF hM]
  rw [hval, ← Finset.mul_prod_erase _ _ ha, norm_mul, norm_prod]
  gcongr

/-- Two roots cannot be arbitrarily close together, when all roots are simple. -/
theorem one_le_dist_mul_pow (hsep : (complex F).Separable) {a b : ℂ} (ha : (complex F).IsRoot a)
    (hb : (complex F).IsRoot b) (hab : a ≠ b) :
    1 ≤ ‖a - b‖ * (2 * M) ^ (F.natDegree ^ 2 + F.natDegree) := by
  rw [← mem_complexRoots hF] at ha hb
  have hbase : 1 ≤ 2 * M := by linarith [two_le_bound hF hM]
  have hpos : 0 < F.natDegree := card_complexRoots hsep ▸ Finset.card_pos.2 ⟨a, ha⟩
  have hdegree : (derivative (complex F)).natDegree ≤ F.natDegree := by
    have hle := natDegree_derivative_le (complex F)
    rw [natDegree_complex] at hle
    omega
  have hlead : ‖(complex F).leadingCoeff‖ ^ (derivative (complex F)).natDegree ≤
      (2 * M) ^ F.natDegree :=
    (pow_le_pow_left₀ (norm_nonneg _) (norm_leadingCoeff_le hF hM) _).trans
      (pow_le_pow_right₀ hbase hdegree)
  have hprod := norm_prod_derivative_le hF hM hsep ha hb hab
  calc (1 : ℝ) ≤ ‖(complex F).leadingCoeff‖ ^ (derivative (complex F)).natDegree *
        ‖((complex F).roots.map (derivative (complex F)).eval).prod‖ := one_le_norm_resultant hsep
    _ ≤ (2 * M) ^ F.natDegree *
        (‖a - b‖ * (2 * M) ^ F.natDegree * ((2 * M) ^ F.natDegree) ^ (F.natDegree - 1)) := by
      gcongr
    _ = ‖a - b‖ * (2 * M) ^ (F.natDegree ^ 2 + F.natDegree) := by
      obtain ⟨k, hk⟩ : ∃ k, F.natDegree = k + 1 := ⟨F.natDegree - 1, by omega⟩
      rw [hk, Nat.add_sub_cancel]
      ring

end

end MarketAlgebra.Roots
