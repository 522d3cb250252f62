import MarketAlgebra.Proofs.Roots.Correspondence
import MarketAlgebra.Proofs.Roots.Real

/-!
# How close an approximation is to its root

Narrowing keeps the root of an interval between the ends, so the rational in the middle is as close
to the root as the interval is narrow (`close_narrow`).  So every rational of the list is `Close` to
the root in its place (`close_isolated`).  That is close enough in relation to the rational unless
the halvings run out first (`Close.accurate`), as they do for a root far below the bound
(`far_root_is_missed`).
-/

namespace MarketAlgebra.Roots

open Polynomial

variable {p : Poly} {a b m q : Rat} {r : ℝ}

/-! ## The tolerance -/

/-- How far a rational may be from its root, when narrowing starts with the width `w`: half of the
width at which narrowing stops, or half of what is left after all halvings. -/
def tolerance (w q : Rat) : Rat :=
  max ((1 + |q|) / 2 ^ (precisionBits + 1)) (w / 2 ^ (narrowingLimit + 1))

/-- A rational and a real within the tolerance. -/
def Close (w q : Rat) (r : ℝ) : Prop := |(q : ℝ) - r| ≤ (tolerance w q : ℝ)

theorem Close.mono {v w : Rat} (h : Close v q r) (hvw : v ≤ w) : Close w q r :=
  h.trans (Rat.cast_le.2 (max_le_max le_rfl (div_le_div_of_nonneg_right hvw (by positivity))))

/-- A rational that is far enough from another one lies on the same side of it as the root. -/
theorem Close.side {c w : Rat} (h : Close w q r) (hfar : tolerance w q < |q - c|) :
    (c ≤ q ↔ (c : ℝ) ≤ r) ∧ (q ≤ c ↔ r ≤ (c : ℝ)) := by
  obtain ⟨hleft, hright⟩ := abs_le.1 h
  have hfar' : (tolerance w q : ℝ) < |(q : ℝ) - c| := by exact_mod_cast hfar
  rw [← Rat.cast_le (K := ℝ), ← Rat.cast_le (K := ℝ)]
  rcases le_total (c : ℝ) q with hcq | hqc
  · rw [abs_of_nonneg (sub_nonneg.2 hcq)] at hfar'
    exact ⟨iff_of_true hcq (by linarith), iff_of_false (by linarith) (by linarith)⟩
  · rw [abs_of_nonpos (sub_nonpos.2 hqc)] at hfar'
    exact ⟨iff_of_false (by linarith) (by linarith), iff_of_true hqc (by linarith)⟩

/-! ## Narrowing -/

/-- The middle of an interval is half the width from any point. -/
theorem abs_midpoint_sub_le (h : (a : ℝ) < r ∧ r ≤ b) :
    |((midpoint a b : Rat) : ℝ) - r| ≤ ((b - a) / 2 : Rat) := by
  rw [midpoint]
  push_cast
  rw [abs_le]
  constructor <;> linarith [h.1, h.2]

/-- What narrowing gives is close to the only root, or the interval has become narrow. -/
theorem abs_narrowFrom_sub_le (hsep : p.toPolynomial.Separable) (steps : ℕ) (h : a < b)
    (hone : rootsIn p a b = {r}) :
    let q := narrowFrom p (sturmChain p) steps a b
    |(q : ℝ) - r| ≤ ((1 + |q|) / 2 ^ (precisionBits + 1) : Rat) ∨
      |(q : ℝ) - r| ≤ ((b - a) / 2 ^ (steps + 1) : Rat) := by
  induction steps generalizing a b with
  | zero =>
    refine .inr ?_
    rw [zero_add, pow_one]
    exact abs_midpoint_sub_le ((mem_rootsIn hsep.ne_zero).1 (hone ▸ Finset.mem_singleton_self r)).2
  | succ steps ih =>
    obtain ⟨hleft, hright⟩ := midpoint_mem h
    have hr := (mem_rootsIn hsep.ne_zero).1 (hone ▸ Finset.mem_singleton_self r)
    have hcount := rootCount_eq_card hsep hleft
    have hwidth : ((b - a) / 2) / 2 ^ (steps + 1) = (b - a) / 2 ^ (steps + 1 + 1) := by
      rw [div_div, ← pow_succ']
    rw [narrowFrom]
    dsimp only
    split_ifs with hzero hnarrow hhalf
    · rw [eq_of_eval_eq_zero hsep hone ⟨hleft, hright.le⟩ hzero, sub_self, abs_zero]
      exact .inl (Rat.cast_nonneg.2 (by positivity))
    · refine .inl ((abs_midpoint_sub_le hr.2).trans (Rat.cast_le.2 ?_))
      rw [Poly.rat_abs_eq, Rat.mkRat_eq_div] at hnarrow
      rw [pow_succ, ← div_div]
      refine div_le_div_of_nonneg_right (hnarrow.trans_eq ?_) (by norm_num)
      rw [Nat.one_shiftLeft, div_mul_eq_mul_div]
      push_cast
      rw [one_mul]
    · have hroots := rootsIn_left hone hright.le (hcount.symm.trans hhalf)
      refine (ih hleft hroots).imp_right fun hle => hle.trans_eq ?_
      rw [← hwidth, midpoint]
      congr 2
      ring
    · have hroots := rootsIn_right hone hleft.le hright.le (fun hcard => hhalf (hcount.trans hcard))
      refine (ih hright hroots).imp_right fun hle => hle.trans_eq ?_
      rw [← hwidth, midpoint]
      congr 2
      ring

/-- The only root of an interval is found. -/
theorem close_narrow (hsep : p.toPolynomial.Separable) (h : a < b) (hone : rootsIn p a b = {r}) :
    Close (b - a) (narrow p (sturmChain p) a b) r := by
  rw [Close, tolerance, Rat.cast_max, le_max_iff, narrow]
  split
  case isTrue hzero =>
    rw [eq_of_eval_eq_zero hsep hone ⟨h, le_rfl⟩ hzero, sub_self, abs_zero]
    exact .inl (Rat.cast_nonneg.2 (by positivity))
  case isFalse => exact abs_narrowFrom_sub_le hsep narrowingLimit h hone

/-! ## Isolation -/

/-- Every root has a rational that is close to it, and every rational is close to a root. -/
structure Approximates (w : Rat) (qs : List Rat) (roots : Finset ℝ) : Prop where
  covers : ∀ r ∈ roots, ∃ q ∈ qs, Close w q r
  close : ∀ q ∈ qs, ∃ r ∈ roots, Close w q r

/-- Rationals that are close to the roots in their places. -/
theorem Approximates.of_forall₂ {w : Rat} {qs : List Rat} {roots : Finset ℝ}
    (h : List.Forall₂ (Close w) qs roots.sort) : Approximates w qs roots where
  covers _ hr := exists_mem_of_forall₂ (R := flip (Close w)) (List.Forall₂.flip h)
    ((Finset.mem_sort _).2 hr)
  close _ hq :=
    (exists_mem_of_forall₂ h hq).imp fun _ hr => ⟨(Finset.mem_sort _).1 hr.1, hr.2⟩

/-- The width of the interval that holds all roots. -/
def fullWidth (p : Poly) : Rat := rootBound p - -rootBound p

theorem inherited_width (w : Rat) : Inherited fun a b => b - a ≤ w := by
  intro a b hab hw
  obtain ⟨hleft, hright⟩ := midpoint_mem hab
  constructor <;> linarith

/-- The rationals are close to the real roots in their places. -/
theorem close_isolated (hsep : p.toPolynomial.Separable) :
    List.Forall₂ (Close (fullWidth p)) (isolated p) p.realRoots.sort :=
  forall₂_isolated hsep (inherited_width (fullWidth p))
    (fun hab hw hone => (close_narrow hsep hab hone).mono hw) le_rfl

/-- The rationals for all real roots are close to them. -/
theorem approximates_isolated (hsep : p.toPolynomial.Separable) :
    Approximates (fullWidth p) (isolated p) p.realRoots :=
  .of_forall₂ (close_isolated hsep)

/-! ## Relative accuracy -/

/-- A rational that agrees with a real to all binary places. -/
def Accurate (q : Rat) (r : ℝ) : Prop := |(q : ℝ) - r| ≤ ((1 + |q|) / 2 ^ precisionBits : Rat)

/-- The halvings suffice for all binary places when the bound of the roots is not too large in
relation to the rational. -/
theorem Close.accurate (h : Close (fullWidth p) q r)
    (hbound : rootBound p ≤ 2 ^ (narrowingLimit - precisionBits) * (1 + |q|)) : Accurate q r := by
  refine h.trans (Rat.cast_le.2 (max_le ?_ ?_))
  · gcongr
    · norm_num
    · exact Nat.le_succ precisionBits
  · have hpow : (2 : Rat) ^ (narrowingLimit + 1) =
        2 * 2 ^ (narrowingLimit - precisionBits) * 2 ^ precisionBits := by
      rw [← pow_succ', ← pow_add]
      rfl
    rw [fullWidth, hpow, div_le_div_iff₀ (by positivity) (by positivity)]
    have hscaled := mul_le_mul_of_nonneg_right hbound
      (by positivity : (0 : Rat) ≤ 2 * 2 ^ precisionBits)
    linarith

theorem accurate_ratCast {s : Rat} : Accurate q s ↔ |q - s| ≤ (1 + |q|) / 2 ^ precisionBits := by
  rw [Accurate, ← Rat.cast_sub, ← Rat.cast_abs, Rat.cast_le]

/-- Every rational is within the tolerance of the root in its place, and it is accurate unless the
bound of the roots is too large for the number of halvings. -/
theorem isolation_is_accurate (hp : Squarefree p.toPolynomial) :
    List.Forall₂ (fun q r => Close (fullWidth p) q r ∧
        (rootBound p ≤ 2 ^ (narrowingLimit - precisionBits) * (1 + |q|) → Accurate q r))
      (isolated p) p.realRoots.sort :=
  (close_isolated (PerfectField.separable_iff_squarefree.2 hp)).imp fun _ _ h => ⟨h, h.accurate⟩

/-- The root of `Q^3 - 2`. -/
theorem isolation_is_accurate_of_cubic :
    Squarefree (Poly.ofTerms [(3, 1), (0, -2)]).toPolynomial ∧
      List.Forall₂ Accurate (isolated (.ofTerms [(3, 1), (0, -2)]))
        (Poly.ofTerms [(3, 1), (0, -2)]).realRoots.sort := by
  have hsquare : (Poly.ofTerms [(3, 1), (0, -2)]).squareFreePart = .ofTerms [(3, 1), (0, -2)] := by
    decide +kernel
  have hp : Squarefree (Poly.ofTerms [(3, 1), (0, -2)]).toPolynomial := by
    rw [← hsquare]
    exact Poly.squarefree_squareFreePart (by decide +kernel)
  refine ⟨hp, (isolation_is_accurate hp).imp fun q r h => h.2 ?_⟩
  have hbound : rootBound (.ofTerms [(3, 1), (0, -2)]) = 3 := by decide +kernel
  have hlarge : (3 : Rat) ≤ 2 ^ (narrowingLimit - precisionBits) := by decide +kernel
  rw [hbound]
  exact hlarge.trans
    (le_mul_of_one_le_right (by positivity) (le_add_of_nonneg_right (abs_nonneg q)))

/-- The polynomial `Q^3 - 2^900`, whose root is small in relation to the bound. -/
def farCubic : Poly := .ofTerms [(3, 1), (0, -2 ^ 900)]

theorem squarefree_farCubic : Squarefree farCubic.toPolynomial := by
  have hsquare : farCubic.squareFreePart = farCubic := by decide +kernel
  rw [← hsquare]
  exact Poly.squarefree_squareFreePart (by decide +kernel)

theorem realRoots_farCubic : farCubic.realRoots = {2 ^ 300} := by
  have hreal : farCubic.real = X ^ 3 - C ((2 ^ 300) ^ 3 : ℝ) := by
    rw [Poly.real, farCubic, Poly.toPolynomial_ofTerms_of_lt (by decide), Poly.sumTerms_cons,
      Poly.sumTerms_cons, Poly.sumTerms_nil, add_zero, Polynomial.map_add, map_monomial,
      map_monomial, map_one, ← X_pow_eq_monomial, monomial_zero_left, map_neg, map_pow, map_ofNat,
      C_neg, ← sub_eq_add_neg, ← pow_mul]
  ext r
  rw [Poly.mem_realRoots squarefree_farCubic.ne_zero, hreal, Finset.mem_singleton, eval_sub,
    eval_pow, eval_X, eval_C, sub_eq_zero]
  exact (Odd.strictMono_pow (by decide : Odd 3)).injective.eq_iff

/-- Halving ends at about `2^388`. -/
theorem isolated_farCubic : isolated farCubic = [(2 ^ 900 + 1) / 2 ^ 512] := by
  rw [isolated_eq]
  decide +kernel

/-- Not every rational is accurate. -/
theorem far_root_is_missed :
    Squarefree farCubic.toPolynomial ∧ 3 ≤ farCubic.toPolynomial.natDegree ∧
      isolated farCubic = [(2 ^ 900 + 1) / 2 ^ 512] ∧ farCubic.realRoots = {2 ^ 300} ∧
      ¬Accurate ((2 ^ 900 + 1) / 2 ^ 512) (2 ^ 300) := by
  have hsize := Poly.size_eq squarefree_farCubic.ne_zero
  have hsize' : farCubic.size = 4 := by decide +kernel
  refine ⟨squarefree_farCubic, by omega, isolated_farCubic, realRoots_farCubic, ?_⟩
  have hroot : (2 : ℝ) ^ 300 = ((2 ^ 300 : Rat) : ℝ) := by
    rw [Rat.cast_pow, Rat.cast_ofNat]
  rw [hroot, accurate_ratCast]
  decide +kernel

/-! ## The listed roots -/

/-- A real root is the value of an exact entry, or it has an approximation. -/
theorem exists_entry (hp : p.toPolynomial ≠ 0) (hr : p.real.eval r = 0) :
    (∃ e ∈ exactRoots p, e.value = r) ∨
      ∃ q ∈ approximations p, Close (fullWidth (remaining p)) q r := by
  have hremains := remains_remaining hp
  have hne := hremains.separable.ne_zero
  rw [← Poly.mem_realRoots hp, ← realRoots_squareFreePart,
    Poly.mem_realRoots (separable_squareFreePart hp).ne_zero, hremains.mem_iff] at hr
  rw [exactRoots, approximations]
  rcases hr with ⟨q, hq, rfl⟩ | hr
  · exact .inl ⟨.const q, List.mem_append_left _ (List.mem_map_of_mem hq), rfl⟩
  · split
    case isTrue hsmall =>
      obtain ⟨e, he, hvalue⟩ :=
        List.mem_map.1 (((denotes_remainingRoots hne hsmall).mem_iff r).2 hr)
      exact .inl ⟨e, List.mem_append_right _ he, hvalue⟩
    case isFalse =>
      exact .inr
        ((approximates_isolated hremains.separable).covers r ((Poly.mem_realRoots hne).2 hr))

/-- Every approximation is close to a real root. -/
theorem exists_close_root (hp : p.toPolynomial ≠ 0) (hq : q ∈ approximations p) :
    ∃ r, p.real.eval r = 0 ∧ Close (fullWidth (remaining p)) q r := by
  have hremains := remains_remaining hp
  have hne := hremains.separable.ne_zero
  rw [approximations] at hq
  split at hq
  case isTrue => cases hq
  case isFalse =>
    obtain ⟨r, hr, hclose⟩ := (approximates_isolated hremains.separable).close q hq
    refine ⟨r, ?_, hclose⟩
    rw [← Poly.mem_realRoots hp, ← realRoots_squareFreePart,
      Poly.mem_realRoots (separable_squareFreePart hp).ne_zero, hremains.mem_iff]
    exact .inr ((Poly.mem_realRoots hne).1 hr)

end MarketAlgebra.Roots
