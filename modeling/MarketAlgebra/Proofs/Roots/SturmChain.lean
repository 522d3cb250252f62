import Mathlib.Topology.Algebra.Polynomial
import Mathlib.Topology.LocallyConstant.Basic
import Mathlib.Topology.Order.IntermediateValue
import MarketAlgebra.Proofs.Poly.RealRoots
import MarketAlgebra.Roots.Isolation

/-!
# Counting roots with a Sturm chain

Along the chain of a polynomial, the number of sign changes at a point plus the number of roots up
to that point is the same everywhere (`variation_add_rootsUpTo`).  It is enough that this number is
constant around every point.

* Where the first polynomial of a chain is not zero, the number of sign changes is constant
  (`eventually_variation_eq`).  A zero further on in the chain stands between two values of opposite
  signs, so it does not matter which sign it takes nearby.
* At a simple root of the first polynomial, its sign changes from the opposite of the sign of the
  derivative to that sign.  So one sign change is lost when one root is gained.
-/

namespace MarketAlgebra.Roots

open Polynomial Filter Topology

/-! ## Sign changes of real values -/

/-- The number of sign changes along a list behind a value, zeros left out. -/
noncomputable def changesFrom (a : ℝ) : List ℝ → ℕ
  | [] => 0
  | b :: bs => if b = 0 then changesFrom a bs
      else (if 0 < a ↔ 0 < b then 0 else 1) + changesFrom b bs

/-- The number of sign changes along a list, zeros left out. -/
noncomputable def variation : List ℝ → ℕ
  | [] => 0
  | a :: as => if a = 0 then variation as else changesFrom a as

theorem variation_cons_zero (as : List ℝ) : variation (0 :: as) = variation as := by
  rw [variation, if_pos rfl]

theorem variation_cons {a : ℝ} (h : a ≠ 0) (as : List ℝ) :
    variation (a :: as) = changesFrom a as := by
  rw [variation, if_neg h]

theorem changesFrom_cons_zero (a : ℝ) (bs : List ℝ) :
    changesFrom a (0 :: bs) = changesFrom a bs := by
  rw [changesFrom, if_pos rfl]

/-- A value that is not zero has the sign changes of the list from there on. -/
theorem changesFrom_cons {a b : ℝ} (h : b ≠ 0) (bs : List ℝ) :
    changesFrom a (b :: bs) = (if 0 < a ↔ 0 < b then 0 else 1) + variation (b :: bs) := by
  rw [changesFrom, if_neg h, variation_cons h]

/-- Between opposite signs there is one change, whatever stands between them. -/
theorem changesFrom_between {a c : ℝ} (hc : c ≠ 0) (h : ¬(0 < a ↔ 0 < c)) (b : ℝ)
    (cs : List ℝ) : changesFrom a (b :: c :: cs) = 1 + variation (c :: cs) := by
  by_cases hb : b = 0
  · rw [hb, changesFrom_cons_zero, changesFrom_cons hc, if_neg h]
  · rw [changesFrom_cons hb, variation_cons hb, changesFrom_cons hc]
    by_cases hab : 0 < a ↔ 0 < b
    · rw [if_pos hab, if_neg (by rwa [← hab]), zero_add]
    · have hbc : 0 < b ↔ 0 < c := by tauto
      rw [if_neg hab, if_pos hbc, zero_add]

/-- The number of sign changes along a list of polynomials at a real point. -/
noncomputable def variationAt (seq : List Poly) (x : ℝ) : ℕ :=
  variation (seq.map fun p => p.real.eval x)

/-- The sign changes of rationals are those of the same reals. -/
theorem signChanges_cons (a : ℚ) (as : List ℚ) :
    signChanges (a :: as.filter (· != 0)) = changesFrom (a : ℝ) (as.map (Rat.cast : ℚ → ℝ)) := by
  induction as generalizing a with
  | nil => rfl
  | cons b bs ih =>
    rw [List.map_cons]
    by_cases hb : b = 0
    · rw [hb, Rat.cast_zero, changesFrom_cons_zero, List.filter_cons_of_neg (by simp), ih]
    · have hb' : (b : ℝ) ≠ 0 := Rat.cast_ne_zero.2 hb
      rw [List.filter_cons_of_pos (by simpa using hb), signChanges, ih, changesFrom, if_neg hb']
      simp only [Rat.cast_pos, eq_iff_iff]

/-- At a rational point the number of sign changes is computed with rationals. -/
theorem signChangesAt_eq (seq : List Poly) (a : ℚ) :
    signChangesAt seq a = variationAt seq a := by
  rw [signChangesAt, variationAt]
  induction seq with
  | nil => rfl
  | cons p seq ih =>
    rw [List.map_cons, List.map_cons, Poly.eval_real_ratCast]
    by_cases hp : p.eval a = 0
    · rw [hp, Rat.cast_zero, variation_cons_zero, List.filter_cons_of_neg (by simp), ih]
    · rw [List.filter_cons_of_pos (by simpa using hp), signChanges_cons,
        variation_cons (Rat.cast_ne_zero.2 hp), List.map_map]
      congr 1
      refine List.map_congr_left fun q _ => ?_
      exact (Poly.eval_real_ratCast q a).symm

/-! ## Around a point where the first polynomial is not zero -/

/-- A polynomial keeps its sign around a point where it is not zero. -/
theorem eventually_sign {f : ℝ[X]} {x : ℝ} (h : f.eval x ≠ 0) :
    ∀ᶠ y in 𝓝 x, f.eval y ≠ 0 ∧ (0 < f.eval y ↔ 0 < f.eval x) := by
  have hcont : ContinuousAt (fun y => f.eval y) x := f.continuous.continuousAt
  rcases lt_or_gt_of_ne h with hneg | hpos
  · filter_upwards [hcont.eventually_lt continuousAt_const hneg] with y hy
    exact ⟨hy.ne, by simp [hy.not_gt, hneg.not_gt]⟩
  · filter_upwards [continuousAt_const.eventually_lt hcont hpos] with y hy
    exact ⟨hy.ne', by simp [hy, hpos]⟩

theorem chain_of_eq_zero {p q : Poly} (h : q.size = 0) : chain p q = [p] := by
  rw [chain, dif_pos h]

theorem chain_of_ne_zero {p q : Poly} (h : q.size ≠ 0) :
    chain p q = p :: chain q (-(p.divMod q).2) := by
  rw [chain, dif_neg h]

/-- A chain starts with its first polynomial. -/
theorem exists_chain_eq (p q : Poly) : ∃ seq, chain p q = p :: seq := by
  by_cases h : q.size = 0
  · exact ⟨_, chain_of_eq_zero h⟩
  · exact ⟨_, chain_of_ne_zero h⟩

theorem variationAt_cons (p : Poly) (seq : List Poly) (x : ℝ) :
    variationAt (p :: seq) x = variation (p.real.eval x :: seq.map fun q => q.real.eval x) := rfl

theorem size_neg_divMod_lt (p : Poly) {q : Poly} (h : q.size ≠ 0) :
    (-(p.divMod q).2).size < q.size :=
  Nat.lt_of_le_of_lt (Poly.size_neg_le _) (Poly.size_divMod_lt p h)

/-- At a zero of the divisor the negated remainder is the negation of the dividend. -/
theorem eval_neg_divMod {p q : Poly} {x : ℝ} (h : q.real.eval x = 0) :
    (-(p.divMod q).2).real.eval x = -p.real.eval x := by
  rw [← Poly.real_divMod p q, eval_add, eval_mul, h, mul_zero, zero_add, Poly.real_neg, eval_neg]

/-- Around a point where the first polynomial is not zero, the number of sign changes along a chain
is constant. -/
theorem eventually_variation_eq {p q : Poly} {x : ℝ} (hp : p.real.eval x ≠ 0) :
    ∀ᶠ y in 𝓝 x, variationAt (chain p q) y = variationAt (chain p q) x := by
  induction hn : q.size using Nat.strongRecOn generalizing p q with
  | ind n ih =>
    by_cases hq : q.size = 0
    · rw [chain_of_eq_zero hq]
      filter_upwards [eventually_sign hp] with y hy
      rw [variationAt_cons, variationAt_cons, variation_cons hy.1, variation_cons hp]
      rfl
    set r := -(p.divMod q).2 with hr
    have hsize : r.size < n := hn ▸ size_neg_divMod_lt p hq
    rw [chain_of_ne_zero hq, ← hr]
    by_cases hqx : q.real.eval x = 0
    · have hrx : r.real.eval x = -p.real.eval x := eval_neg_divMod hqx
      have hrne : r.real.eval x ≠ 0 := by rw [hrx]; exact neg_ne_zero.2 hp
      have hrsize : r.size ≠ 0 := by
        intro hz
        rw [Poly.real_eq_zero_iff.2 (Poly.size_eq_zero.1 hz), eval_zero] at hrne
        exact hrne rfl
      have hopposite : ¬(0 < p.real.eval x ↔ 0 < r.real.eval x) := by
        rw [hrx, Left.neg_pos_iff]
        rcases lt_or_gt_of_ne hp with h | h
        · simp [h, h.not_gt]
        · simp [h, h.not_gt]
      set s := -(q.divMod r).2 with hs
      have hssize : s.size < r.size := size_neg_divMod_lt q hrsize
      obtain ⟨seq, hseq⟩ := exists_chain_eq r s
      have hconst := ih s.size (hssize.trans hsize) (q := s) hrne rfl
      rw [chain_of_ne_zero hrsize, ← hs]
      rw [hseq] at hconst ⊢
      filter_upwards [eventually_sign hp, eventually_sign hrne, hconst] with y hpy hry hy
      have hopposite' : ¬(0 < p.real.eval y ↔ 0 < r.real.eval y) := by rwa [hpy.2, hry.2]
      rw [variationAt_cons, variationAt_cons, variation_cons hpy.1, variation_cons hp,
        List.map_cons, List.map_cons, List.map_cons, List.map_cons,
        changesFrom_between hry.1 hopposite', changesFrom_between hrne hopposite,
        ← variationAt_cons, ← variationAt_cons, hy]
    · obtain ⟨seq, hseq⟩ := exists_chain_eq q r
      have hconst := ih r.size hsize (q := r) hqx rfl
      rw [hseq] at hconst ⊢
      filter_upwards [eventually_sign hp, eventually_sign hqx, hconst] with y hpy hqy hy
      rw [variationAt_cons, variationAt_cons, variation_cons hpy.1, variation_cons hp,
        List.map_cons, List.map_cons, changesFrom_cons hqy.1, changesFrom_cons hqx,
        ← variationAt_cons, ← variationAt_cons, hy]
      simp only [hpy.2, hqy.2]

/-! ## Around a root -/

/-- Around a simple root the sign changes from the opposite of the sign of the derivative to that
sign. -/
theorem eventually_sign_of_root {f : ℝ[X]} {x : ℝ} (hx : f.eval x = 0)
    (hd : (derivative f).eval x ≠ 0) :
    ∀ᶠ y in 𝓝 x, (x < y → f.eval y ≠ 0 ∧ (0 < f.eval y ↔ 0 < (derivative f).eval x)) ∧
      (y < x → f.eval y ≠ 0 ∧ ¬(0 < f.eval y ↔ 0 < (derivative f).eval x)) := by
  obtain ⟨g, rfl⟩ := dvd_iff_isRoot.2 hx
  have hg : (derivative ((X - C x) * g)).eval x = g.eval x := by
    simp [derivative_mul]
  rw [hg] at hd ⊢
  filter_upwards [eventually_sign hd] with y hy
  have hvalue : ((X - C x) * g).eval y = (y - x) * g.eval y := by simp
  rw [hvalue]
  constructor
  · intro hxy
    have hpos : 0 < y - x := sub_pos.2 hxy
    exact ⟨mul_ne_zero hpos.ne' hy.1, by rw [mul_pos_iff_of_pos_left hpos, hy.2]⟩
  · intro hyx
    have hneg : y - x < 0 := sub_neg.2 hyx
    refine ⟨mul_ne_zero hneg.ne hy.1, ?_⟩
    rw [← hy.2]
    rcases lt_or_gt_of_ne hy.1 with h | h
    · simp [mul_pos_of_neg_of_neg hneg h, h.not_gt]
    · simp [(mul_neg_of_neg_of_pos hneg h).not_gt, h]

/-- The number of real roots up to a point. -/
noncomputable def rootsUpTo (p : Poly) (x : ℝ) : ℕ := (p.realRoots.filter (· ≤ x)).card

/-- Around a point the other roots stay on their sides. -/
theorem eventually_le_iff (s : Finset ℝ) (x : ℝ) :
    ∀ᶠ y in 𝓝 x, ∀ r ∈ s, r ≠ x → (r ≤ y ↔ r ≤ x) := by
  rw [Finset.eventually_all]
  intro r _
  rcases lt_trichotomy r x with h | h | h
  · filter_upwards [lt_mem_nhds h] with y hy _
    exact ⟨fun _ => h.le, fun _ => hy.le⟩
  · exact Eventually.of_forall fun y hne => absurd h hne
  · filter_upwards [gt_mem_nhds h] with y hy _
    exact ⟨fun hle => absurd hle hy.not_ge, fun hle => absurd hle h.not_ge⟩

/-- Around a point that is no root the number of roots up to a point is constant. -/
theorem eventually_rootsUpTo_eq {p : Poly} {x : ℝ} (h : x ∉ p.realRoots) :
    ∀ᶠ y in 𝓝 x, rootsUpTo p y = rootsUpTo p x := by
  filter_upwards [eventually_le_iff p.realRoots x] with y hy
  rw [rootsUpTo, rootsUpTo]
  congr 1
  refine Finset.filter_congr fun r hr => hy r hr ?_
  rintro rfl
  exact h hr

/-- At a root the number of roots up to a point goes up by one. -/
theorem eventually_rootsUpTo_of_root {p : Poly} {x : ℝ} (h : x ∈ p.realRoots) :
    ∀ᶠ y in 𝓝 x, (x ≤ y → rootsUpTo p y = rootsUpTo p x) ∧
      (y < x → rootsUpTo p y + 1 = rootsUpTo p x) := by
  filter_upwards [eventually_le_iff p.realRoots x] with y hy
  constructor
  · intro hxy
    rw [rootsUpTo, rootsUpTo]
    congr 1
    refine Finset.filter_congr fun r hr => ?_
    by_cases hrx : r = x
    · rw [hrx]
      exact ⟨fun _ => le_rfl, fun _ => hxy⟩
    · exact hy r hr hrx
  · intro hyx
    have hinsert : p.realRoots.filter (· ≤ x) = insert x (p.realRoots.filter (· ≤ y)) := by
      ext r
      rw [Finset.mem_insert, Finset.mem_filter, Finset.mem_filter]
      by_cases hrx : r = x
      · rw [hrx]
        simp [h]
      · constructor
        · rintro ⟨hr, hle⟩
          exact .inr ⟨hr, (hy r hr hrx).2 hle⟩
        · rintro (heq | ⟨hr, hle⟩)
          · exact absurd heq hrx
          · exact ⟨hr, (hy r hr hrx).1 hle⟩
    rw [rootsUpTo, rootsUpTo, hinsert, Finset.card_insert_of_notMem]
    rw [Finset.mem_filter, not_and]
    exact fun _ => hyx.not_ge

/-! ## The whole line -/

section

variable {p : Poly} (hp : p.toPolynomial ≠ 0)
    (hsimple : ∀ a, p.real.eval a = 0 → (derivative p.real).eval a ≠ 0)
include hp hsimple

/-- Around every point, sign changes are lost where roots are gained. -/
theorem eventually_variation_add_eq (x : ℝ) : ∀ᶠ y in 𝓝 x,
    variationAt (sturmChain p) y + rootsUpTo p y =
      variationAt (sturmChain p) x + rootsUpTo p x := by
  by_cases hx : p.real.eval x = 0
  · have hdx : p.derivative.real.eval x ≠ 0 := by
      rw [Poly.real_derivative]
      exact hsimple x hx
    have hsize : p.derivative.size ≠ 0 := by
      intro hz
      rw [Poly.real_eq_zero_iff.2 (Poly.size_eq_zero.1 hz), eval_zero] at hdx
      exact hdx rfl
    have hroot : x ∈ p.realRoots := (Poly.mem_realRoots hp).2 hx
    obtain ⟨seq, hseq⟩ := exists_chain_eq p.derivative (-(p.divMod p.derivative).2)
    have hconst := eventually_variation_eq (q := -(p.divMod p.derivative).2) hdx
    rw [sturmChain, chain_of_ne_zero hsize]
    rw [hseq] at hconst ⊢
    have hfirst : variationAt (p :: p.derivative :: seq) x =
        variationAt (p.derivative :: seq) x := by
      rw [variationAt_cons, hx, variation_cons_zero]
      rfl
    filter_upwards [hconst, eventually_sign hdx, eventually_sign_of_root hx (hsimple x hx),
      eventually_rootsUpTo_of_root hroot] with y hy hsign hside hroots
    have hcons (h : p.real.eval y ≠ 0) : variationAt (p :: p.derivative :: seq) y =
        (if 0 < p.real.eval y ↔ 0 < p.derivative.real.eval y then 0 else 1) +
          variationAt (p.derivative :: seq) y := by
      rw [variationAt_cons, variation_cons h, List.map_cons, changesFrom_cons hsign.1,
        ← variationAt_cons]
    rw [hfirst]
    rcases lt_trichotomy x y with hxy | rfl | hyx
    · obtain ⟨hne, hiff⟩ := hside.1 hxy
      rw [hcons hne, hy, hroots.1 hxy.le, if_pos, zero_add]
      rw [hsign.2, hiff, Poly.real_derivative]
    · rw [hfirst]
    · obtain ⟨hne, hiff⟩ := hside.2 hyx
      rw [hcons hne, hy, ← hroots.2 hyx, if_neg]
      · ring
      · rwa [hsign.2, Poly.real_derivative]
  · have hroot : x ∉ p.realRoots := mt (Poly.mem_realRoots hp).1 hx
    filter_upwards [eventually_variation_eq (q := p.derivative) hx,
      eventually_rootsUpTo_eq hroot] with y hy hroots
    rw [sturmChain, hy, hroots]

/-- Sign changes along the chain and roots up to a point add up to the same everywhere. -/
theorem variation_add_rootsUpTo (x y : ℝ) :
    variationAt (sturmChain p) x + rootsUpTo p x =
      variationAt (sturmChain p) y + rootsUpTo p y := by
  have hconst : IsLocallyConstant fun z => variationAt (sturmChain p) z + rootsUpTo p z :=
    (IsLocallyConstant.iff_eventually_eq _).2 (eventually_variation_add_eq hp hsimple)
  exact hconst.apply_eq_of_isPreconnected isPreconnected_univ trivial trivial

/-- The chain counts the roots that are greater than one rational and at most another one. -/
theorem rootCount_eq {a b : ℚ} (hab : a ≤ b) : rootCount (sturmChain p) a b =
    (p.realRoots.filter fun r => (a : ℝ) < r ∧ r ≤ b).card := by
  have hsum := variation_add_rootsUpTo hp hsimple a b
  have hsplit : rootsUpTo p b =
      rootsUpTo p a + (p.realRoots.filter fun r => (a : ℝ) < r ∧ r ≤ b).card := by
    have hab' : (a : ℝ) ≤ b := Rat.cast_le.2 hab
    rw [rootsUpTo, rootsUpTo, ← Finset.card_union_of_disjoint]
    · congr 1
      ext r
      simp only [Finset.mem_filter, Finset.mem_union]
      constructor
      · rintro ⟨hr, hle⟩
        rcases le_or_gt r a with h | h
        · exact .inl ⟨hr, h⟩
        · exact .inr ⟨hr, h, hle⟩
      · rintro (⟨hr, hle⟩ | ⟨hr, -, hle⟩)
        · exact ⟨hr, hle.trans hab'⟩
        · exact ⟨hr, hle⟩
    · rw [Finset.disjoint_filter]
      exact fun r _ hle h => h.1.not_ge hle
  rw [rootCount, signChangesAt_eq, signChangesAt_eq]
  omega

end

end MarketAlgebra.Roots
