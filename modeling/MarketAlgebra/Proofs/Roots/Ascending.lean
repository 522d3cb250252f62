import MarketAlgebra.Proofs.Number.Arithmetic
import MarketAlgebra.Proofs.Roots.Exact
import MarketAlgebra.Proofs.Roots.RationalSearch
import MarketAlgebra.Proofs.StableSort

/-!
# The order of the listed roots

The roots are found by three methods, and the list is sorted by their approximations.  It ascends by
value exactly when the approximations of each two entries, in the order in which they were found,
are in the order of their values (`pairwise_realRoots_iff`).

Most approximations are.  Rationals that the search lists are fractions of small integers, which
floats tell apart (`small_of_mem_rationalRoots`), and isolated rationals are found in ascending
order.  The root of a linear remainder, and rational roots of a quadratic one, stand beside the root
zero at most, because the search missed them (`ordered_of_size_le`).  The two surds of a quadratic
remainder are approximated in their order unless the middle between them overflows
(`ordered_surdRoot`).  What is left to ask (`ToldApart`) concerns surds beside other roots, where
their approximations may cancel, and isolated rationals just below one that the search has listed.
-/

namespace MarketAlgebra.Roots

open Binary64 (ofRat rank rank_ofRat_mono)

variable {p q : Poly} {r c : Rat}

/-! ## Found roots -/

/-- The roots in the order in which they are found. -/
def found (p : Poly) : List Approximated :=
  (rationalRoots p.squareFreePart).map approximated ++ remainingRoots (remaining p)

/-- Sorting by approximation puts the entries in the order of their values. -/
def Ordered (d e : Approximated) : Prop := InOrder (rank ·.2) (·.1.value) d e

theorem ordered_of_lt {d e : Approximated} (hvalue : d.1.value < e.1.value)
    (hrank : rank d.2 ≤ rank e.2) : Ordered d e :=
  ⟨fun _ => hrank, fun hlt => absurd hlt hvalue.not_gt⟩

theorem ordered_of_gt {d e : Approximated} (hvalue : e.1.value < d.1.value)
    (hrank : rank e.2 < rank d.2) : Ordered d e :=
  ⟨fun hlt => absurd hlt hvalue.not_gt, fun _ => hrank⟩

theorem realRoots_eq (hp : p.toPolynomial ≠ 0) :
    realRoots p = ((sortByKey (rank ·.2) (found p)).map (·.1)).eraseReps := by
  rw [realRoots]
  split
  case isTrue h =>
    have hnil : found p = [] := List.map_eq_nil_iff.1 ((map_found p).trans (listed_eq_nil hp h))
    rw [hnil, sortByKey, List.mergeSort_nil]
    rfl
  case isFalse => rfl

/-- Entries with the same value are the same: constants are, and exact roots are distinct. -/
theorem eq_of_value_eq (hp : p.toPolynomial ≠ 0) {d e : Expr} (hd : d ∈ listed p)
    (he : e ∈ listed p) (h : d.value = e.value) : d = e := by
  have hexact : ∀ {e}, e ∈ listed p → Irrational e.value → e ∈ exactRoots p := by
    intro e he hirrational
    refine (List.mem_append.1 he).resolve_right fun hmem => ?_
    obtain ⟨a, -, rfl⟩ := List.mem_map.1 hmem
    exact a.not_irrational hirrational
  rcases irrational_or_const_of_mem_listed hd with hirrational | ⟨a, rfl⟩
  · exact List.inj_on_of_nodup_map (exact_exactRoots hp).nodup (hexact hd hirrational)
      (hexact he (h ▸ hirrational)) h
  · rcases irrational_or_const_of_mem_listed he with hirrational | ⟨b, rfl⟩
    · rw [← h] at hirrational
      exact absurd hirrational a.not_irrational
    · rw [Rat.cast_injective h]

/-- The list ascends exactly when the approximations are in the order of the values. -/
theorem pairwise_realRoots_iff (hp : p.toPolynomial ≠ 0) :
    (realRoots p).Pairwise (fun d e => d.value < e.value) ↔ (found p).Pairwise Ordered := by
  have hmem : ∀ e ∈ (sortByKey (rank ·.2) (found p)).map (·.1), e ∈ listed p := by
    intro e he
    obtain ⟨f, hf, rfl⟩ := List.mem_map.1 he
    rw [← map_found p]
    exact List.mem_map_of_mem ((mem_sortByKey _).1 hf)
  rw [realRoots_eq hp, pairwise_eraseReps_iff fun d hd e he => eq_of_value_eq hp (hmem d hd)
    (hmem e he), List.pairwise_map]
  exact pairwise_sortByKey_iff

/-! ## Rational entries -/

/-- Rounding keeps the order of rationals, so only a smaller one that is found later may be tied. -/
theorem ordered_approximated_iff : Ordered (approximated r) (approximated c) ↔
    (c < r → rank (ofRat c) < rank (ofRat r)) := by
  have hlt : ∀ {a b : Rat}, (Expr.const a).value < (Expr.const b).value ↔ a < b := Rat.cast_lt
  rw [Ordered, InOrder, approximated, approximated, hlt, hlt]
  exact and_iff_right fun h => rank_ofRat_mono h.le

theorem ordered_of_le (h : r ≤ c) : Ordered (approximated r) (approximated c) :=
  ordered_approximated_iff.2 fun hlt => absurd hlt h.not_gt

/-- The search lists fractions of small integers. -/
theorem small_of_mem_rationalRoots (hp : p.toPolynomial ≠ 0) (h : r ∈ rationalRoots p) :
    Binary64.Small r := by
  by_cases hr : r = 0
  · rw [hr]
    exact ⟨by decide, by decide⟩
  · have hlimit : searchLimit < 2 ^ 26 := by decide
    obtain ⟨htrailing, hleading⟩ := coeffs_le_of_mem_rationalRoots hp h hr
    obtain ⟨hnum, hden⟩ := dvd_coeffs_of_eval hp hr ((areRoots_rationalRoots p).eval r h)
    have hne := Poly.primitive_ne_zero hp
    have htrailing0 : 0 < p.primitive.trailingCoeff.natAbs :=
      Int.natAbs_pos.2 (mt Polynomial.trailingCoeff_eq_zero.1 hne)
    have hleading0 : 0 < p.primitive.leadingCoeff.natAbs :=
      Int.natAbs_pos.2 (Polynomial.leadingCoeff_ne_zero.2 hne)
    exact ⟨((Nat.le_of_dvd htrailing0 hnum).trans htrailing).trans_lt hlimit,
      ((Nat.le_of_dvd hleading0 hden).trans hleading).trans_lt hlimit⟩

/-- The rationals that the search lists are told apart. -/
theorem pairwise_rationalRoots (hp : p.toPolynomial ≠ 0) :
    ((rationalRoots p).map approximated).Pairwise Ordered := by
  rw [List.pairwise_map, List.pairwise_iff_forall_sublist]
  intro r s hsub
  rw [ordered_approximated_iff]
  exact Binary64.rank_ofRat_lt_of_small (small_of_mem_rationalRoots hp (hsub.subset (by simp)))
    (small_of_mem_rationalRoots hp (hsub.subset (by simp)))

theorem remainingRoots_eq_map (hq : 3 < q.size) :
    remainingRoots q = (isolated q).map approximated := by
  rw [remainingRoots]
  split
  case h_5 => rfl
  all_goals omega

/-- The approximations of two surds are in order unless that of the middle between them is
infinite. -/
theorem ordered_surdRoot {center offset : Rat} {inside : Nat} (hcenter : |center| ≤ 2 ^ 1023)
    (hoffset : 0 < offset) (hinside : 0 < inside) :
    Ordered (surdRoot center (-offset) inside) (surdRoot center offset inside) := by
  refine ordered_of_lt ?_ (Binary64.rank_surd_le (Binary64.isFinite_ofRat hcenter) hoffset.le
    (Nat.cast_nonneg _))
  have hsqrt : 0 < (offset : ℝ) * Real.sqrt inside :=
    mul_pos (Rat.cast_pos.2 hoffset) (Real.sqrt_pos.2 (Nat.cast_pos.2 hinside))
  rw [value_surdRoot center _ hinside, value_surdRoot center _ hinside]
  push_cast
  linarith

theorem QuadraticEntries.pairwise {center : Rat} {es : List Approximated}
    (h : QuadraticEntries center es) :
    es.Pairwise fun d e => 2 ^ 1023 < |center| ∧ Irrational e.1.value ∨ Ordered d e := by
  cases h with
  | none => exact .nil
  | double a => exact List.pairwise_singleton _ _
  | rational hlt => exact List.pairwise_pair.2 (.inr (ordered_of_le hlt.le))
  | surd hoffset hinside =>
    refine List.pairwise_pair.2 ?_
    rcases lt_or_ge (2 ^ 1023) |center| with hlarge | hsmall
    · exact .inl ⟨hlarge, irrational_surdRoot center hoffset.ne' hinside⟩
    · exact .inr (ordered_surdRoot hsmall hoffset (Nat.pos_of_ne_zero fun hzero => by
        exact hinside (hzero ▸ ⟨0, rfl⟩)))

/-- The entries for what is left are found in ascending order, unless they are surds and the middle
between them overflows. -/
theorem pairwise_remainingRoots (q : Poly) : (remainingRoots q).Pairwise fun d e =>
    (q.size = 3 ∧ 2 ^ 1023 < |middle q|) ∧ Irrational e.1.value ∨ Ordered d e := by
  obtain hsize | h3 | h2 | h1 | h0 :
    3 < q.size ∨ q.size = 3 ∨ q.size = 2 ∨ q.size = 1 ∨ q.size = 0 := by omega
  · rw [remainingRoots_eq_map hsize, List.pairwise_map]
    exact (spread_isolated q).increasing.imp fun h => .inr (ordered_of_le h.le)
  · rw [remainingRoots, h3]
    exact (quadraticEntries h3).pairwise.imp fun h => h.imp_left fun h => ⟨⟨rfl, h.1⟩, h.2⟩
  · rw [remainingRoots, h2]
    exact List.pairwise_singleton _ _
  · rw [remainingRoots, h1]
    exact .nil
  · rw [remainingRoots, h0]
    exact .nil

/-- A rational entry for a remainder of low degree is a root that the search missed. -/
theorem missed_of_mem_remainingRoots (hp : p.toPolynomial ≠ 0) (hsize : (remaining p).size ≤ 3)
    (h : approximated c ∈ remainingRoots (remaining p)) :
    p.squareFreePart.eval c = 0 ∧ c ∉ rationalRoots p.squareFreePart := by
  have hremains := remains_remaining hp
  have hdenotes := denotes_remainingRoots hremains.separable.ne_zero hsize
  have hroot : (remaining p).real.eval (c : ℝ) = 0 :=
    (hdenotes.mem_iff _).1 (List.mem_map_of_mem (List.mem_map_of_mem h))
  refine ⟨?_, fun hmem => hremains.disjoint c hmem hroot⟩
  rw [← Rat.cast_eq_zero (α := ℝ), ← Poly.eval_real_ratCast, hremains.mem_iff]
  exact .inr hroot

/-- Beside such an entry the search has found zero at most. -/
theorem ordered_of_size_le (hp : p.toPolynomial ≠ 0) (hsize : (remaining p).size ≤ 3)
    (hr : r ∈ rationalRoots p.squareFreePart)
    (h : approximated c ∈ remainingRoots (remaining p)) :
    Ordered (approximated r) (approximated c) := by
  obtain ⟨hroot, hmissed⟩ := missed_of_mem_remainingRoots hp hsize h
  have hzero := eq_zero_of_missed (separable_squareFreePart hp).ne_zero hroot hmissed hr
  rw [ordered_approximated_iff, hzero]
  exact fun hneg => Binary64.rank_ofRat_lt_of_sign hneg le_rfl

/-! ## What is left to ask -/

/-- The approximations tell surds apart from the roots found before them, and isolated rationals
from larger ones that the search has listed. -/
structure ToldApart (p : Poly) : Prop where
  surd : (found p).Pairwise fun d e => Irrational e.1.value → Ordered d e
  isolated : ∀ r ∈ rationalRoots p.squareFreePart, ∀ c ∈ approximations p, c < r →
    rank (ofRat c) < rank (ofRat r)

/-- A rational entry for what is left is isolated, or it stands for a remainder of low degree. -/
theorem mem_remainingRoots_iff : approximated c ∈ remainingRoots (remaining p) ↔
    c ∈ approximations p ∨
      (remaining p).size ≤ 3 ∧ approximated c ∈ remainingRoots (remaining p) := by
  rw [approximations]
  split
  case isTrue hsize => simp [hsize]
  case isFalse hsize =>
    have hinj : Function.Injective approximated := fun a b h => Expr.const.inj (congrArg Prod.fst h)
    rw [remainingRoots_eq_map (not_le.1 hsize), List.mem_map_of_injective hinj]
    simp [hsize]

theorem pairwise_found_iff (hp : p.toPolynomial ≠ 0) :
    (found p).Pairwise Ordered ↔ ToldApart p := by
  constructor
  · intro h
    refine ⟨h.imp ?_, fun r hr c hc => ?_⟩
    · intro d e hordered _
      exact hordered
    · rw [found, List.pairwise_append] at h
      exact ordered_approximated_iff.1 (h.2.2 _ (List.mem_map_of_mem hr) _
        (mem_remainingRoots_iff.2 (.inl hc)))
  · rintro ⟨hsurd, hisolated⟩
    rw [found, List.pairwise_append] at hsurd ⊢
    obtain ⟨-, hleft, hcross⟩ := hsurd
    refine ⟨pairwise_rationalRoots (separable_squareFreePart hp).ne_zero, ?_, fun d hd e he => ?_⟩
    · exact (hleft.and (pairwise_remainingRoots _)).imp fun h =>
        h.2.elim (fun hlarge => h.1 hlarge.2) id
    · rcases irrational_or_approximated_of_mem_remainingRoots he with hirrational | ⟨c, rfl⟩
      · exact hcross d hd e he hirrational
      · obtain ⟨r, hr, rfl⟩ := List.mem_map.1 hd
        rcases mem_remainingRoots_iff.1 he with hc | ⟨hsize, hc⟩
        · exact ordered_approximated_iff.2 (hisolated r hr c hc)
        · exact ordered_of_size_le hp hsize hr hc

/-- Constants that are all exact, or that are isolated beside the root zero at most, are told
apart. -/
theorem ToldApart.of_const (hp : p.toPolynomial ≠ 0) (hconst : ∀ e ∈ realRoots p, ∃ a, e = .const a)
    (h : approximations p = [] ∨ ∀ r ∈ rationalRoots p.squareFreePart, r = 0) : ToldApart p where
  surd := by
    have hrational : ∀ e ∈ found p, ¬Irrational e.1.value := by
      intro e he hirrational
      obtain ⟨a, ha⟩ := hconst e.1 ((mem_realRoots hp).2 (map_found p ▸ List.mem_map_of_mem he))
      rw [ha] at hirrational
      exact a.not_irrational hirrational
    rw [List.pairwise_iff_forall_sublist]
    intro d e hsub hirrational
    exact absurd hirrational (hrational e (hsub.subset (by simp)))
  isolated r hr c hc hlt := by
    rcases h with hnone | hzero
    · rw [hnone] at hc
      cases hc
    · rw [hzero r hr] at hlt ⊢
      exact Binary64.rank_ofRat_lt_of_sign hlt le_rfl

/-- Roots that are found without the search are told apart, unless they are surds and the middle
between them overflows. -/
theorem pairwise_found_of_middle (hrational : rationalRoots p.squareFreePart = [])
    (hmiddle : (remaining p).size = 3 → |middle (remaining p)| ≤ 2 ^ 1023) :
    (found p).Pairwise Ordered := by
  rw [found, hrational, List.map_nil, List.nil_append]
  exact (pairwise_remainingRoots _).imp fun h => h.resolve_left fun hlarge =>
    (hmiddle hlarge.1.1).not_gt hlarge.1.2

/-- The listed roots ascend strictly exactly when their approximations tell them apart.  They do so
for constants that are all exact, and for constants that are isolated beside the root zero at
most.  They also do so when the search finds no root, unless the middle between two surds
overflows. -/
theorem roots_ascend_iff_told_apart (hp : p ≠ .zero) :
    ((realRoots p).Pairwise (fun d e => d.value < e.value) ↔ ToldApart p) ∧
    ((∀ e ∈ realRoots p, ∃ a, e = .const a) →
      (approximations p = [] ∨ ∀ r ∈ rationalRoots p.squareFreePart, r = 0) →
      (realRoots p).Pairwise fun d e => d.value < e.value) ∧
    (rationalRoots p.squareFreePart = [] →
      ((remaining p).size = 3 → |middle (remaining p)| ≤ 2 ^ 1023) →
      (realRoots p).Pairwise fun d e => d.value < e.value) := by
  have hne : p.toPolynomial ≠ 0 := Poly.toPolynomial_ne_zero hp
  have hfound := pairwise_realRoots_iff hne
  have hiff := hfound.trans (pairwise_found_iff hne)
  exact ⟨hiff, fun hconst h => hiff.2 (.of_const hne hconst h), fun hrational hmiddle =>
    hfound.2 (pairwise_found_of_middle hrational hmiddle)⟩

/-! ## Surds beside the root zero -/

theorem quadraticRoots_of_surd (d center offset : Rat) (surd : SurdForm)
    (hd : p.coeff 1 * p.coeff 1 - 4 * p.coeff 2 * p.coeff 0 = d) (hpos : 0 < d)
    (hcenter : -p.coeff 1 / (2 * p.coeff 2) = center)
    (hsurd : SurdForm.ofNat (d.num.toNat * d.den) = surd)
    (hoffset : mkRat surd.outside d.den / (2 * p.coeff 2).abs = offset)
    (hinside : surd.inside ≠ 1) : quadraticRoots p =
      [surdRoot center (-offset) surd.inside, surdRoot center offset surd.inside] := by
  rw [quadraticRoots, hd, if_neg hpos.not_gt, if_neg hpos.ne', hcenter, hsurd]
  dsimp only
  rw [hoffset, if_neg hinside]

/-- The polynomial `x ^ 2 + b x + c`. -/
def surdSquare (b c : Rat) : Poly := .x * .x + .const b * .x + .const c

/-- The zero root is found first, then the surds. -/
theorem found_x_mul {center offset : Rat} {inside : Nat}
    (hrational : rationalRoots (.x * q : Poly).squareFreePart = [0])
    (hremaining : remaining (.x * q) = q) (hsize : q.size = 3)
    (hroots : quadraticRoots q =
      [surdRoot center (-offset) inside, surdRoot center offset inside]) :
    found (.x * q) = [approximated 0, surdRoot center (-offset) inside,
      surdRoot center offset inside] := by
  rw [found, hrational, hremaining, remainingRoots, hsize, hroots]
  rfl

theorem value_approximated (a : Rat) : (approximated a).1.value = a := rfl

/-- The roots `± √2` are listed in ascending order, without the root zero and beside it. -/
theorem roots_ascend_of_surdSquare :
    (surdSquare 0 (-2) ≠ .zero ∧
      (realRoots (surdSquare 0 (-2))).Pairwise fun d e => d.value < e.value) ∧
    (Poly.x * surdSquare 0 (-2) ≠ .zero ∧
      (realRoots (.x * surdSquare 0 (-2))).Pairwise fun d e => d.value < e.value) := by
  have hne : surdSquare 0 (-2) ≠ .zero := by decide +kernel
  have hne' : Poly.x * surdSquare 0 (-2) ≠ .zero := by decide +kernel
  have hrational : rationalRoots (surdSquare 0 (-2)).squareFreePart = [] := by decide +kernel
  have hmiddle : |middle (remaining (surdSquare 0 (-2)))| ≤ 2 ^ 1023 := by
    have hzero : middle (remaining (surdSquare 0 (-2))) = 0 := by decide +kernel
    rw [hzero, abs_zero]
    positivity
  have hroots : quadraticRoots (surdSquare 0 (-2)) = [surdRoot 0 (-1) 2, surdRoot 0 1 2] :=
    quadraticRoots_of_surd 8 0 1 ⟨2, 2⟩ (by decide +kernel) (by norm_num) (by decide +kernel)
      (by decide +kernel) (by decide +kernel) (by decide)
  have hfound := found_x_mul (by decide +kernel) (by decide +kernel) (by decide +kernel) hroots
  have hsqrt : 0 < Real.sqrt 2 := Real.sqrt_pos.2 two_pos
  have hlower : (surdRoot 0 (-1) 2).1.value < (approximated 0).1.value := by
    rw [value_approximated, value_surdRoot 0 (-1) two_pos]
    push_cast
    linarith
  have hupper : (approximated 0).1.value < (surdRoot 0 1 2).1.value := by
    rw [value_approximated, value_surdRoot 0 1 two_pos]
    push_cast
    linarith
  have hordered : (found (.x * surdSquare 0 (-2))).Pairwise Ordered := by
    rw [hfound]
    refine List.pairwise_cons.2 ⟨List.forall_mem_cons.2 ⟨?_, List.forall_mem_singleton.2 ?_⟩,
      List.pairwise_pair.2 ?_⟩
    · exact ordered_of_gt hlower (by decide +kernel)
    · exact ordered_of_lt hupper (by decide +kernel)
    · exact ordered_of_lt (hlower.trans hupper) (by decide +kernel)
  exact ⟨⟨hne, (roots_ascend_iff_told_apart hne).2.2 hrational fun _ => hmiddle⟩,
    hne', (roots_ascend_iff_told_apart hne').1.2
      ((pairwise_found_iff (Poly.toPolynomial_ne_zero hne')).1 hordered)⟩

/-- In floats the larger surd of `x ^ 2 + 19726764302 x + 1` cancels to zero. -/
theorem not_pairwise_found_surd :
    ¬(found (.x * surdSquare 19726764302 1)).Pairwise Ordered := by
  have hroots : quadraticRoots (surdSquare 19726764302 1) =
      [surdRoot (-9863382151) (-5694626340) 3, surdRoot (-9863382151) 5694626340 3] :=
    quadraticRoots_of_surd 389145229826661547200 (-9863382151) 5694626340 ⟨11389252680, 3⟩
      (by decide +kernel) (by norm_num) (by decide +kernel)
      (by decide +kernel) (by decide +kernel) (by decide)
  have hfound := found_x_mul (by decide +kernel) (by decide +kernel) (by decide +kernel) hroots
  have hnegative : (surdRoot (-9863382151) 5694626340 3).1.value < (approximated 0).1.value := by
    have hsqrt : Real.sqrt 3 < 9863382151 / 5694626340 := by
      rw [Real.sqrt_lt' (by norm_num)]
      norm_num
    rw [value_approximated, value_surdRoot _ _ three_pos]
    push_cast
    linarith
  have hrank : rank (surdRoot (-9863382151) 5694626340 3).2 = rank (ofRat 0) := by decide +kernel
  rw [hfound, List.pairwise_cons]
  intro h
  have hordered := h.1 (surdRoot (-9863382151) 5694626340 3) (by simp)
  exact (hordered.2 hnegative).ne hrank

/-- A polynomial with the root `1` and another one just below it. -/
def closeQuartic : Poly :=
  (.x - .one) * (.x * .x * .x + .const (2 ^ 60) * .x * (.x - .one) + .const 2)

/-- The isolated rational just below `1`. -/
def justBelowOne : Rat :=
  166153499473114483104169566004051967 / 166153499473114484112975882535043072

/-- The isolated rational has the approximation of the root `1`, which is found first. -/
theorem not_pairwise_found_isolated : ¬(found closeQuartic).Pairwise Ordered := by
  have hrational : rationalRoots closeQuartic.squareFreePart = [1] := by decide +kernel
  have hisolated : justBelowOne ∈ isolated (remaining closeQuartic) := by
    rw [isolated_eq]
    decide +kernel
  have hsize : 3 < (remaining closeQuartic).size := by decide +kernel
  have hrank : rank (ofRat justBelowOne) = rank (ofRat 1) := by decide +kernel
  rw [found, hrational, remainingRoots_eq_map hsize, List.pairwise_append]
  intro h
  have hordered := h.2.2 (approximated 1) (by simp) (approximated justBelowOne)
    (List.mem_map_of_mem hisolated)
  exact (ordered_approximated_iff.1 hordered (by decide +kernel)).ne hrank

/-- The larger surd is negative but listed after the root zero, and the isolated rational is less
than one but listed after the root one. -/
theorem listed_roots_do_not_ascend :
    (Poly.x * surdSquare 19726764302 1 ≠ .zero ∧
      ¬(realRoots (.x * surdSquare 19726764302 1)).Pairwise fun d e => d.value < e.value) ∧
    (closeQuartic ≠ .zero ∧
      ¬(realRoots closeQuartic).Pairwise fun d e => d.value < e.value) := by
  have hne : Poly.x * surdSquare 19726764302 1 ≠ .zero := by decide +kernel
  have hne' : closeQuartic ≠ .zero := by decide +kernel
  exact ⟨⟨hne, mt (pairwise_realRoots_iff (Poly.toPolynomial_ne_zero hne)).1
      not_pairwise_found_surd⟩,
    hne', mt (pairwise_realRoots_iff (Poly.toPolynomial_ne_zero hne')).1
      not_pairwise_found_isolated⟩

end MarketAlgebra.Roots
