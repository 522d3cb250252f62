import Mathlib.Data.Finset.Sort
import Mathlib.Data.Sign.Basic
import MarketAlgebra.Proofs.Roots.Isolation

/-!
# The rationals in the order of the roots

Halving keeps the order, so the rationals that it gives and the roots of the interval correspond one
by one (`Halves.forall₂`): what narrowing ensures for the only root of an interval holds for every
rational and the root in its place.  A rational has the sign of its root, because the interval that
holds all roots has zero in the middle (`sign_narrow`).
-/

namespace MarketAlgebra.Roots

variable {p : Poly} {a b m : Rat} {r : ℝ}

/-! ## One rational for one root -/

theorem exists_mem_of_forall₂ {α β : Type*} {R : α → β → Prop} {as : List α} {bs : List β}
    (h : List.Forall₂ R as bs) {a : α} (ha : a ∈ as) : ∃ b ∈ bs, R a b := by
  induction h with
  | nil => cases ha
  | cons hab _ ih =>
    rcases List.mem_cons.1 ha with rfl | ha
    · exact ⟨_, List.mem_cons_self, hab⟩
    · exact (ih ha).imp fun _ hb => ⟨List.mem_cons_of_mem _ hb.1, hb.2⟩

/-- The roots of an interval in ascending order are those of its parts one after the other. -/
theorem sort_rootsIn (ham : a ≤ m) (hmb : m ≤ b) :
    (rootsIn p a b).sort = (rootsIn p a m).sort ++ (rootsIn p m b).sort := by
  have hlt : ∀ r ∈ (rootsIn p a m).sort, ∀ s ∈ (rootsIn p m b).sort, r < s := by
    intro r hr s hs
    simp only [Finset.mem_sort, rootsIn, Finset.mem_filter] at hr hs
    exact hr.2.2.trans_lt hs.2.1
  have hsort (s : Finset ℝ) : s.sort.Pairwise (· < ·) := (Finset.sortedLT_sort s).pairwise
  have hsorted : ((rootsIn p a m).sort ++ (rootsIn p m b).sort).Pairwise (· < ·) :=
    List.pairwise_append.2 ⟨hsort _, hsort _, hlt⟩
  rw [← rootsIn_union p ham hmb, ← (List.toFinset_sort (r := (· ≤ ·)) (hsorted.imp ne_of_lt)).2
    (hsorted.imp le_of_lt), List.toFinset_append, Finset.sort_toFinset, Finset.sort_toFinset]

/-- A property of intervals that halves inherit. -/
def Inherited (I : Rat → Rat → Prop) : Prop :=
  ∀ a b, a < b → I a b → I a (midpoint a b) ∧ I (midpoint a b) b

/-- What holds of every rational that is narrowed down and its root holds of all rationals of an
interval and its roots. -/
theorem Halves.forall₂ {R : Rat → ℝ → Prop} {I : Rat → Rat → Prop} {qs : List Rat}
    (hsep : p.toPolynomial.Separable) (hI : Inherited I)
    (hnarrow : ∀ {a b r}, a < b → I a b → rootsIn p a b = {r} → R (narrow p (sturmChain p) a b) r)
    (h : Halves p (sturmChain p) a b qs) (hab : a < b) (hab' : I a b) :
    List.Forall₂ R qs (rootsIn p a b).sort := by
  induction h with
  | none hcount =>
    rw [rootCount_eq_card hsep hab, Finset.card_eq_zero] at hcount
    rw [hcount, Finset.sort_empty]
    exact .nil
  | one hcount =>
    rw [rootCount_eq_card hsep hab, Finset.card_eq_one] at hcount
    obtain ⟨r, hr⟩ := hcount
    rw [hr, Finset.sort_singleton]
    exact .cons (hnarrow hab hab' hr) .nil
  | halve _ _ _ ihleft ihright =>
    obtain ⟨hleft, hright⟩ := midpoint_mem hab
    obtain ⟨hIleft, hIright⟩ := hI _ _ hab hab'
    rw [sort_rootsIn hleft.le hright.le]
    exact List.rel_append (ihleft hleft hIleft) (ihright hright hIright)

/-- What holds of every rational that is narrowed down and its root holds of all rationals and all
roots. -/
theorem forall₂_isolated {R : Rat → ℝ → Prop} {I : Rat → Rat → Prop}
    (hsep : p.toPolynomial.Separable) (hI : Inherited I)
    (hnarrow : ∀ {a b r}, a < b → I a b → rootsIn p a b = {r} → R (narrow p (sturmChain p) a b) r)
    (hfull : I (-rootBound p) (rootBound p)) : List.Forall₂ R (isolated p) p.realRoots.sort := by
  rw [← rootsIn_rootBound hsep.ne_zero]
  exact (halves_isolated hsep).forall₂ hsep hI hnarrow (neg_lt_self (rootBound_pos p)) hfull

/-! ## Signs -/

/-- Zero is not inside of the interval, or it is where a wide interval is halved. -/
def SplitAtZero (a b : Rat) : Prop := 0 ≤ a ∨ b ≤ 0 ∨ a = -b ∧ 1 ≤ b

theorem midpoint_neg_self (b : Rat) : midpoint (-b) b = 0 := by
  rw [midpoint, neg_add_cancel, zero_div]

theorem inherited_splitAtZero : Inherited SplitAtZero := by
  intro a b hab h
  obtain ⟨hleft, hright⟩ := midpoint_mem hab
  rcases h with ha | hb | ⟨rfl, -⟩
  · exact ⟨.inl ha, .inl (ha.trans hleft.le)⟩
  · exact ⟨.inr (.inl (hright.le.trans hb)), .inr (.inl hb)⟩
  · rw [midpoint_neg_self]
    exact ⟨.inr (.inl le_rfl), .inl le_rfl⟩

/-- Narrowing right of zero. -/
theorem sign_narrowFrom_of_nonneg (hsep : p.toPolynomial.Separable) (h : a < b)
    (hone : rootsIn p a b = {r}) (ha : 0 ≤ a) (steps : ℕ) :
    SignType.sign (narrowFrom p (sturmChain p) steps a b : ℝ) = SignType.sign r := by
  have hr := (mem_rootsIn hsep.ne_zero).1 (hone ▸ Finset.mem_singleton_self r)
  have hq : 0 < narrowFrom p (sturmChain p) steps a b := ha.trans_lt (narrowFrom_mem p _ steps h).1
  rw [sign_pos (Rat.cast_pos.2 hq), sign_pos ((Rat.cast_nonneg.2 ha).trans_lt hr.2.1)]

/-- Narrowing left of zero, when the right end is not the root. -/
theorem sign_narrowFrom_of_nonpos (hsep : p.toPolynomial.Separable) (h : a < b)
    (hone : rootsIn p a b = {r}) (hb : b ≤ 0) (hend : p.eval b ≠ 0) (steps : ℕ) :
    SignType.sign (narrowFrom p (sturmChain p) steps a b : ℝ) = SignType.sign r := by
  have hr := (mem_rootsIn hsep.ne_zero).1 (hone ▸ Finset.mem_singleton_self r)
  have hq : narrowFrom p (sturmChain p) steps a b < 0 := (narrowFrom_mem p _ steps h).2.trans_le hb
  have hne : r ≠ b := by
    rintro rfl
    rw [Poly.eval_real_ratCast, Rat.cast_eq_zero] at hr
    exact hend hr.1
  rw [sign_neg (Rat.cast_lt_zero.2 hq),
    sign_neg ((lt_of_le_of_ne hr.2.2 hne).trans_le (Rat.cast_nonpos.2 hb))]

/-- A rational has the sign of its root. -/
theorem sign_narrow (hsep : p.toPolynomial.Separable) (h : a < b) (hzero : SplitAtZero a b)
    (hone : rootsIn p a b = {r}) :
    SignType.sign (narrow p (sturmChain p) a b : ℝ) = SignType.sign r := by
  rw [narrow]
  split
  case isTrue hend => rw [eq_of_eval_eq_zero hsep hone ⟨h, le_rfl⟩ hend]
  case isFalse hend =>
    rcases hzero with ha | hb | ⟨rfl, hwide⟩
    · exact sign_narrowFrom_of_nonneg hsep h hone ha narrowingLimit
    · exact sign_narrowFrom_of_nonpos hsep h hone hb hend narrowingLimit
    · obtain ⟨hleft, hright⟩ := midpoint_mem h
      rw [narrowingLimit, narrowFrom, midpoint_neg_self] at *
      split_ifs with hroot hnarrow hhalf
      · rw [eq_of_eval_eq_zero hsep hone ⟨hleft, hright.le⟩ hroot]
      · rw [Poly.rat_abs_eq, abs_zero, add_zero, mul_one] at hnarrow
        have hsmall : mkRat 1 (1 <<< precisionBits) < 1 := by decide
        linarith
      · have hcard := (rootCount_eq_card hsep hleft).symm.trans hhalf
        exact sign_narrowFrom_of_nonpos hsep hleft (rootsIn_left hone hright.le hcard) le_rfl
          hroot _
      · exact sign_narrowFrom_of_nonneg hsep hright
          (rootsIn_right hone hleft.le hright.le
            fun hcard => hhalf ((rootCount_eq_card hsep hleft).trans hcard)) le_rfl _

/-! ## Completeness -/

/-- A rational that stands for a real root: an interval has both, and no other root, and they have
the same sign. -/
structure StandsFor (p : Poly) (q : Rat) (r : ℝ) : Prop where
  interval : ∃ a b : Rat, (a < q ∧ q ≤ b) ∧ rootsIn p a b = {r}
  sign : SignType.sign (q : ℝ) = SignType.sign r

theorem standsFor_narrow (hsep : p.toPolynomial.Separable) (h : a < b) (hzero : SplitAtZero a b)
    (hone : rootsIn p a b = {r}) : StandsFor p (narrow p (sturmChain p) a b) r where
  interval := ⟨a, b, narrow_mem p _ h, hone⟩
  sign := sign_narrow hsep h hzero hone

theorem standsFor_isolated (hsep : p.toPolynomial.Separable) :
    List.Forall₂ (StandsFor p) (isolated p) p.realRoots.sort :=
  forall₂_isolated hsep inherited_splitAtZero (standsFor_narrow hsep)
    (.inr (.inr ⟨rfl, one_le_rootBound p⟩))

/-- There are as many rationals as real roots. -/
theorem length_isolated (hsep : p.toPolynomial.Separable) :
    (isolated p).length = p.realRoots.card := by
  rw [(standsFor_isolated hsep).length_eq, Finset.length_sort]

/-- Halving the interval that holds all roots comes to an end.  The rationals that it gives increase
strictly, and each of them stands for the real root in its place. -/
theorem isolation_is_complete (hp : Squarefree p.toPolynomial) :
    Halves p (sturmChain p) (-rootBound p) (rootBound p) (isolated p) ∧
      (isolated p).Pairwise (· < ·) ∧
      List.Forall₂ (StandsFor p) (isolated p) p.realRoots.sort := by
  have hsep : p.toPolynomial.Separable := PerfectField.separable_iff_squarefree.2 hp
  exact ⟨halves_isolated hsep, (spread_isolated p).increasing, standsFor_isolated hsep⟩

/-- The roots `-1`, `0` and `1` of `Q^3 - Q`. -/
theorem isolation_is_complete_of_cubic :
    Squarefree (Poly.x * Poly.x * Poly.x - Poly.x).toPolynomial ∧
      isolated (Poly.x * Poly.x * Poly.x - Poly.x) = [-1, 0, 1] ∧
      List.Forall₂ (StandsFor (Poly.x * Poly.x * Poly.x - Poly.x)) [-1, 0, 1]
        (Poly.x * Poly.x * Poly.x - Poly.x).realRoots.sort := by
  have hsquare : (Poly.x * Poly.x * Poly.x - Poly.x).squareFreePart =
      Poly.x * Poly.x * Poly.x - Poly.x := by decide +kernel
  have hp : Squarefree (Poly.x * Poly.x * Poly.x - Poly.x).toPolynomial := by
    rw [← hsquare]
    exact Poly.squarefree_squareFreePart (by decide +kernel)
  have hlist : isolated (Poly.x * Poly.x * Poly.x - Poly.x) = [-1, 0, 1] := by
    rw [isolated_eq]
    decide +kernel
  refine ⟨hp, hlist, ?_⟩
  rw [← hlist]
  exact (isolation_is_complete hp).2.2

end MarketAlgebra.Roots
