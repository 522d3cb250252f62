import MarketAlgebra.Proofs.Poly.Primitive
import MarketAlgebra.Proofs.Roots.LowDegree

/-!
# The search for rational roots is complete

A rational root `a / b` in lowest terms gives the primitive divisor `b X - a` of the primitive part,
so `a` divides the trailing and `b` the leading coefficient (`dvd_coeffs_of_eval`).  The divisors of
both coefficients are listed in pairs up to the square root, and no divisor is missed
(`mem_divisors`).  So each rational root but zero is a candidate, and zero is found from the
constant coefficient (`mem_zeroRoot`).

The search is made when both coefficients are small (`Searched`).  A divisor of such a polynomial is
searched as well (`Searched.coeffs_le`), and the list of real roots is made from one, the
square-free part.
-/

namespace MarketAlgebra.Roots

open Polynomial

variable {p q : Poly} {r : Rat}

/-! ## Divisors -/

/-- The pairs are those of a divisor and its cofactor, the smaller one first. -/
theorem mem_divisorPairsFrom {n d a b : Nat} (hd : 0 < d) :
    (a, b) ∈ divisorPairsFrom n d ↔ d ≤ a ∧ a ≤ b ∧ a * b = n := by
  fun_induction divisorPairsFrom n d with
  | case1 d h hmod ih =>
    have hmul : d * (n / d) = n := Nat.mul_div_cancel' (Nat.dvd_of_mod_eq_zero hmod)
    rw [List.mem_cons, ih d.succ_pos, Prod.mk.injEq]
    constructor
    · rintro (⟨rfl, rfl⟩ | ⟨ha, hab, hn⟩)
      · exact ⟨le_rfl, (Nat.le_div_iff_mul_le hd).2 h.2, hmul⟩
      · exact ⟨Nat.le_of_succ_le ha, hab, hn⟩
    · rintro ⟨ha, hab, hn⟩
      rcases Nat.eq_or_lt_of_le ha with rfl | ha
      · exact .inl ⟨rfl, (Nat.div_eq_of_eq_mul_right hd hn.symm).symm⟩
      · exact .inr ⟨ha, hab, hn⟩
  | case2 d h hmod ih =>
    rw [ih d.succ_pos]
    refine and_congr_left fun ⟨_, hn⟩ => ⟨Nat.le_of_succ_le, fun ha => ?_⟩
    refine Nat.lt_of_le_of_ne ha ?_
    rintro rfl
    exact hmod (Nat.mod_eq_zero_of_dvd ⟨b, hn.symm⟩)
  | case3 d h =>
    refine ⟨fun hmem => absurd hmem List.not_mem_nil, fun ⟨ha, hab, hn⟩ => absurd ⟨hd, ?_⟩ h⟩
    exact hn ▸ Nat.mul_le_mul ha (ha.trans hab)

/-- All divisors are listed. -/
theorem mem_divisors {n d : Nat} (hn : 0 < n) : d ∈ divisors n ↔ d ∣ n := by
  simp only [divisors, List.mem_append, List.mem_reverse, List.mem_map, List.mem_filter,
    Prod.exists, mem_divisorPairsFrom Nat.one_pos, bne_iff_ne]
  constructor
  · rintro (⟨a, b, ⟨-, -, rfl⟩, rfl⟩ | ⟨a, b, ⟨⟨-, -, rfl⟩, -⟩, rfl⟩)
    · exact Nat.dvd_mul_right a b
    · exact Nat.dvd_mul_left b a
  · rintro ⟨e, rfl⟩
    have hd : 0 < d := Nat.pos_of_mul_pos_right hn
    have he : 0 < e := Nat.pos_of_mul_pos_left hn
    rcases Nat.lt_or_ge e d with hgt | hle
    · exact .inr ⟨e, d, ⟨⟨he, hgt.le, Nat.mul_comm e d⟩, hgt.ne⟩, rfl⟩
    · exact .inl ⟨d, e, ⟨hd, hle, rfl⟩, rfl⟩

/-- The candidates are the quotients of divisors. -/
theorem mem_candidates {m n : Nat} (hm : 0 < m) (hn : 0 < n) :
    r ∈ candidates m n ↔ ∃ a b : Nat, a ∣ m ∧ b ∣ n ∧ (r = mkRat (-a) b ∨ r = mkRat a b) := by
  simp only [candidates, List.mem_flatMap, mem_divisors hm, mem_divisors hn, List.mem_cons,
    List.not_mem_nil, or_false]
  grind

/-! ## Adding candidates -/

theorem mem_addRoot {rs : List Rat} {c : Rat} :
    r ∈ addRoot p rs c ↔ r ∈ rs ∨ r = c ∧ p.eval c = 0 := by
  rw [addRoot]
  split_ifs with hmem hroot
  · rw [List.contains_iff_mem] at hmem
    refine ⟨.inl, ?_⟩
    rintro (hr | ⟨rfl, -⟩)
    · exact hr
    · exact hmem
  · rw [List.mem_append, List.mem_singleton, and_iff_left hroot]
  · exact ⟨.inl, fun h => h.resolve_right fun hc => hroot hc.2⟩

/-- The candidates that are roots are added. -/
theorem mem_foldl_addRoot {cs rs : List Rat} :
    r ∈ cs.foldl (addRoot p) rs ↔ r ∈ rs ∨ r ∈ cs ∧ p.eval r = 0 := by
  induction cs generalizing rs with
  | nil => simp
  | cons c cs ih =>
    rw [List.foldl_cons, ih, mem_addRoot, List.mem_cons, or_assoc]
    grind

/-! ## Rational roots -/

/-- The linear polynomial over the integers with a rational root. -/
noncomputable def linearFactor (r : Rat) : ℤ[X] := C (r.den : ℤ) * X - C r.num

theorem coeff_zero_linearFactor (r : Rat) : (linearFactor r).coeff 0 = -r.num := by
  simp [linearFactor]

theorem coeff_one_linearFactor (r : Rat) : (linearFactor r).coeff 1 = r.den := by
  rw [linearFactor, coeff_sub, coeff_C_mul, coeff_X_one, coeff_C_succ, mul_one, sub_zero]

theorem isPrimitive_linearFactor (r : Rat) : (linearFactor r).IsPrimitive := by
  rw [isPrimitive_iff_isUnit_of_C_dvd]
  intro d hd
  rw [C_dvd_iff_dvd_coeff] at hd
  have hnum := hd 0
  have hden := hd 1
  rw [coeff_zero_linearFactor, Int.dvd_neg] at hnum
  rw [coeff_one_linearFactor] at hden
  have hcoprime : IsCoprime r.num (r.den : ℤ) := Rat.isCoprime_num_den r
  exact hcoprime.isUnit_of_dvd' hnum hden

theorem leadingCoeff_linearFactor (r : Rat) : (linearFactor r).leadingCoeff = r.den := by
  have hden : (r.den : ℤ) ≠ 0 := Int.natCast_ne_zero.2 r.den_nz
  rw [linearFactor, sub_eq_add_neg, ← C_neg, leadingCoeff_linear hden]

theorem trailingCoeff_linearFactor (hr : r ≠ 0) : (linearFactor r).trailingCoeff = -r.num := by
  have hnum : -r.num ≠ 0 := neg_ne_zero.2 (Rat.num_ne_zero.2 hr)
  rw [trailingCoeff_eq_coeff_zero (by rwa [coeff_zero_linearFactor]), coeff_zero_linearFactor]

/-- Over the rationals the linear polynomial is a multiple of `X - r`. -/
theorem map_linearFactor (r : Rat) :
    (linearFactor r).map (Int.castRingHom ℚ) = C (r.den : ℚ) * (X - C r) := by
  have hnum : (r.num : ℚ) = r.den * r := by rw [mul_comm, Rat.mul_den_eq_num]
  rw [linearFactor, Polynomial.map_sub, Polynomial.map_mul, map_C, map_C, map_X, mul_sub, ← C_mul,
    ← hnum]
  rfl

/-- A rational root gives a linear divisor of the primitive part. -/
theorem linearFactor_dvd (hp : p.toPolynomial ≠ 0) (h : p.eval r = 0) :
    linearFactor r ∣ p.primitive := by
  have hunit : IsUnit (C (r.den : ℚ)) := isUnit_C.2 (Nat.cast_ne_zero.2 r.den_nz).isUnit
  rw [Poly.dvd_primitive_iff hp (isPrimitive_linearFactor r), map_linearFactor,
    hunit.mul_left_dvd, dvd_iff_isRoot, IsRoot.def, ← Poly.eval_eq]
  exact h

/-- The rational root theorem. -/
theorem dvd_coeffs_of_eval (hp : p.toPolynomial ≠ 0) (hr : r ≠ 0) (h : p.eval r = 0) :
    r.num.natAbs ∣ p.primitive.trailingCoeff.natAbs ∧
      r.den ∣ p.primitive.leadingCoeff.natAbs := by
  obtain ⟨f, hf⟩ := linearFactor_dvd hp h
  constructor
  · rw [hf, trailingCoeff_mul, trailingCoeff_linearFactor hr, Int.natAbs_mul, Int.natAbs_neg]
    exact Nat.dvd_mul_right _ _
  · rw [hf, leadingCoeff_mul, leadingCoeff_linearFactor, Int.natAbs_mul, Int.natAbs_natCast]
    exact Nat.dvd_mul_right _ _

/-- A rational root but zero is a candidate. -/
theorem mem_candidates_of_eval (hp : p.toPolynomial ≠ 0) (hr : r ≠ 0) (h : p.eval r = 0) :
    r ∈ candidates p.primitive.trailingCoeff.natAbs p.primitive.leadingCoeff.natAbs := by
  have hne := Poly.primitive_ne_zero hp
  obtain ⟨hnum, hden⟩ := dvd_coeffs_of_eval hp hr h
  have hsign : r = mkRat (-r.num.natAbs) r.den ∨ r = mkRat r.num.natAbs r.den := by
    rcases Int.natAbs_eq r.num with hpos | hneg
    · exact .inr (by rw [← hpos, Rat.mkRat_self])
    · exact .inl (by rw [← hneg, Rat.mkRat_self])
  rw [mem_candidates (Int.natAbs_pos.2 (mt trailingCoeff_eq_zero.1 hne))
    (Int.natAbs_pos.2 (leadingCoeff_ne_zero.2 hne))]
  exact ⟨_, _, hnum, hden, hsign⟩

/-- Zero is found from the constant coefficient. -/
theorem mem_zeroRoot (hp : p.toPolynomial ≠ 0) :
    r ∈ (if p.contentAndPrimitive.2.head? = some 0 then [0] else [] : List Rat) ↔
      r = 0 ∧ p.eval r = 0 := by
  have hlength : 0 < p.contentAndPrimitive.2.length := by
    rw [Poly.length_primitive, Poly.size_eq hp]
    exact Nat.succ_pos _
  have hcoeff := p.coeff_eq_content_mul 0
  rw [List.getD_eq_getElem?_getD, List.getElem?_eq_getElem hlength, Option.getD_some] at hcoeff
  have hhead : p.contentAndPrimitive.2.head? = some 0 ↔ p.eval 0 = 0 := by
    rw [Poly.eval_eq, ← coeff_zero_eq_eval_zero, ← Poly.coeff_eq, hcoeff, mul_eq_zero,
      or_iff_right (Poly.content_ne_zero hp), Int.cast_eq_zero, List.head?_eq_getElem?,
      List.getElem?_eq_getElem hlength, Option.some_inj]
  split
  case isTrue hz =>
    rw [List.mem_singleton, eq_comm (a := r), iff_self_and]
    rintro rfl
    exact hhead.1 hz
  case isFalse hz =>
    refine ⟨fun hmem => absurd hmem List.not_mem_nil, ?_⟩
    rintro ⟨rfl, heval⟩
    exact absurd (hhead.2 heval) hz

/-! ## Searched polynomials -/

/-- The primitive form of the polynomial has a leading coefficient and, without all factors `x`, a
constant coefficient up to the limit of the search. -/
def Searched (p : Poly) : Prop :=
  ∃ f : ℤ[X], f.IsPrimitive ∧ (∃ c, p.toPolynomial = C c * f.map (Int.castRingHom ℚ)) ∧
    f.trailingCoeff.natAbs ≤ 1000000 ∧ f.leadingCoeff.natAbs ≤ 1000000

/-- The coefficients of a divisor that the search reads divide those of the polynomial. -/
theorem Searched.coeffs_le (h : Searched p) (hp : p.toPolynomial ≠ 0)
    (hq : q.toPolynomial ∣ p.toPolynomial) :
    q.primitive.trailingCoeff.natAbs ≤ searchLimit ∧
      q.primitive.leadingCoeff.natAbs ≤ searchLimit := by
  obtain ⟨f, hf, ⟨c, hc⟩, htrailing, hleading⟩ := h
  have hq0 : q.toPolynomial ≠ 0 := ne_zero_of_dvd_ne_zero hp hq
  have hc0 : c ≠ 0 := by
    rintro rfl
    rw [map_zero, zero_mul] at hc
    exact hp hc
  have hdvd : q.primitive ∣ f := by
    have hprim := Poly.isPrimitive_primitive hq0
    have hself := (Poly.dvd_primitive_iff hq0 hprim).1 dvd_rfl
    rw [IsPrimitive.Int.dvd_iff_map_cast_dvd_map_cast _ _ hprim,
      ← (isUnit_C.2 hc0.isUnit).dvd_mul_left, ← hc]
    exact hself.trans hq
  obtain ⟨g, rfl⟩ := hdvd
  have hg : q.primitive * g ≠ 0 := hf.ne_zero
  rw [trailingCoeff_mul, Int.natAbs_mul] at htrailing
  rw [leadingCoeff_mul, Int.natAbs_mul] at hleading
  constructor
  · refine (Nat.le_mul_of_pos_right _ ?_).trans htrailing
    exact Int.natAbs_pos.2 (mt trailingCoeff_eq_zero.1 (right_ne_zero_of_mul hg))
  · refine (Nat.le_mul_of_pos_right _ ?_).trans hleading
    exact Int.natAbs_pos.2 (leadingCoeff_ne_zero.2 (right_ne_zero_of_mul hg))

/-- A rational with a small numerator and denominator gives a searched polynomial. -/
theorem searched_x_mul (hr : r ≠ 0) (hnum : r.num.natAbs ≤ 1000000) (hden : r.den ≤ 1000000) :
    Searched (.x * (.x - .const r)) := by
  have hden0 : (r.den : ℚ) ≠ 0 := Nat.cast_ne_zero.2 r.den_nz
  have hfactor : (Poly.x - .const r).size ≤ 2 :=
    Poly.size_sub_le Poly.size_x_le ((Poly.size_const_le r).trans one_le_two)
  have hsize : Poly.x.size + (Poly.x - .const r).size ≤ Poly.wordSize + 1 :=
    (Nat.add_le_add Poly.size_x_le hfactor).trans (by decide)
  refine ⟨X * linearFactor r, monic_X.isPrimitive.mul (isPrimitive_linearFactor r),
    ⟨(r.den : ℚ)⁻¹, ?_⟩, ?_, ?_⟩
  · rw [Polynomial.map_mul, map_X, map_linearFactor, mul_left_comm X, ← mul_assoc, ← C_mul,
      inv_mul_cancel₀ hden0, C_1, one_mul, Poly.toPolynomial_mul_of_size_le hsize,
      Poly.toPolynomial_sub, Poly.toPolynomial_x, Poly.toPolynomial_const]
  · rwa [trailingCoeff_mul, Poly.trailingCoeff_X, one_mul, trailingCoeff_linearFactor hr,
      Int.natAbs_neg]
  · rwa [leadingCoeff_mul, leadingCoeff_X, one_mul, leadingCoeff_linearFactor, Int.natAbs_natCast]

/-- When the coefficients are small, the search lists all rational roots. -/
theorem mem_rationalRoots_iff (hp : p.toPolynomial ≠ 0)
    (h : p.primitive.trailingCoeff.natAbs ≤ searchLimit ∧
      p.primitive.leadingCoeff.natAbs ≤ searchLimit) :
    r ∈ rationalRoots p ↔ p.eval r = 0 := by
  refine ⟨(areRoots_rationalRoots p).eval r, fun hr => ?_⟩
  rw [rationalRoots, Poly.head?_dropWhile_primitive hp, Poly.getLast?_dropWhile_primitive hp]
  dsimp only
  rw [if_pos h, mem_foldl_addRoot, mem_zeroRoot hp]
  by_cases hzero : r = 0
  · exact .inl ⟨hzero, hr⟩
  · exact .inr ⟨mem_candidates_of_eval hp hzero hr, hr⟩

/-- When a coefficient is too large, the search finds zero at most. -/
theorem coeffs_le_of_mem_rationalRoots (hp : p.toPolynomial ≠ 0) (hmem : r ∈ rationalRoots p)
    (hr : r ≠ 0) : p.primitive.trailingCoeff.natAbs ≤ searchLimit ∧
      p.primitive.leadingCoeff.natAbs ≤ searchLimit := by
  by_contra h
  rw [rationalRoots, Poly.head?_dropWhile_primitive hp,
    Poly.getLast?_dropWhile_primitive hp] at hmem
  dsimp only at hmem
  rw [if_neg h, mem_zeroRoot hp] at hmem
  exact hr hmem.1

/-- When the search misses a root, it finds zero at most. -/
theorem eq_zero_of_missed {c : Rat} (hp : p.toPolynomial ≠ 0) (hc : p.eval c = 0)
    (hmissed : c ∉ rationalRoots p) (hmem : r ∈ rationalRoots p) : r = 0 := by
  by_contra hr
  exact hmissed ((mem_rationalRoots_iff hp (coeffs_le_of_mem_rationalRoots hp hmem hr)).2 hc)

/-- The search lists each rational root of a searched polynomial once, and nothing else.  All of
them are listed among the real roots as constants. -/
theorem rational_search_is_complete (hp : p ≠ .zero) (h : Searched p) :
    (rationalRoots p).Nodup ∧ (∀ r, r ∈ rationalRoots p ↔ p.eval r = 0) ∧
      ∀ r, p.eval r = 0 → .const r ∈ realRoots p := by
  have hne : p.toPolynomial ≠ 0 := Poly.toPolynomial_ne_zero hp
  refine ⟨(areRoots_rationalRoots p).nodup,
    fun r => mem_rationalRoots_iff hne (h.coeffs_le hne dvd_rfl), fun r hr => ?_⟩
  have hdvd := squareFreePart_dvd p
  have hsquareFree : p.squareFreePart.toPolynomial ≠ 0 := ne_zero_of_dvd_ne_zero hne hdvd
  have hroot : p.squareFreePart.eval r = 0 := by
    rw [← Rat.cast_eq_zero (α := ℝ), ← Poly.eval_real_ratCast] at hr ⊢
    rwa [← Poly.mem_realRoots hsquareFree, realRoots_squareFreePart, Poly.mem_realRoots hne]
  have hmem := (mem_rationalRoots_iff hsquareFree (h.coeffs_le hne hdvd)).2 hroot
  rw [mem_realRoots hne, listed, exactRoots]
  exact List.mem_append_left _ (List.mem_append_left _ (List.mem_map_of_mem hmem))

/-- Both roots of `x (x - 3/2)` are listed as constants. -/
theorem rational_search_of_x_mul :
    Poly.x * (.x - .const (3 / 2)) ≠ .zero ∧ Searched (.x * (.x - .const (3 / 2))) ∧
      .const 0 ∈ realRoots (.x * (.x - .const (3 / 2))) ∧
      .const (3 / 2) ∈ realRoots (.x * (.x - .const (3 / 2))) := by
  have hne : Poly.x * (.x - .const (3 / 2)) ≠ .zero := by decide +kernel
  have hsearched : Searched (.x * (.x - .const (3 / 2))) :=
    searched_x_mul (by norm_num) (by decide +kernel) (by decide +kernel)
  obtain ⟨-, -, hlisted⟩ := rational_search_is_complete hne hsearched
  exact ⟨hne, hsearched, hlisted 0 (by decide +kernel), hlisted (3 / 2) (by decide +kernel)⟩

end MarketAlgebra.Roots
