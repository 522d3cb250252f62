import MarketAlgebra.Proofs.Roots.Bounds
import MarketAlgebra.Proofs.Roots.SturmChain

/-!
# One rational for every real root

`isolated` gives a list of distinct rationals (`nodup_isolated`).  Each part of a halved interval
yields rationals of its own, because the parts are open on the left and closed on the right.  The
depth never cuts a part off, because a part of the width that is left at depth zero is too narrow
for two roots: the rationals are those that halving without a limit gives (`Halves`,
`halves_isolated`).
-/

namespace MarketAlgebra.Roots

open Polynomial

variable {p : Poly} {seq : List Poly} {a b m : Rat} {r : ℝ}

/-! ## The rationals lie in their intervals -/

theorem midpoint_mem (h : a < b) : a < midpoint a b ∧ midpoint a b < b := by
  rw [midpoint]
  constructor <;> linarith

/-- Narrowing stays inside of the interval. -/
theorem narrowFrom_mem (p : Poly) (seq : List Poly) (steps : Nat) (h : a < b) :
    a < narrowFrom p seq steps a b ∧ narrowFrom p seq steps a b < b := by
  induction steps generalizing a b with
  | zero => exact midpoint_mem h
  | succ steps ih =>
    obtain ⟨hleft, hright⟩ := midpoint_mem h
    rw [narrowFrom]
    split_ifs
    · exact ⟨hleft, hright⟩
    · exact ⟨hleft, hright⟩
    · exact ⟨(ih hleft).1, (ih hleft).2.trans hright⟩
    · exact ⟨hleft.trans (ih hright).1, (ih hright).2⟩

theorem narrow_mem (p : Poly) (seq : List Poly) (h : a < b) :
    a < narrow p seq a b ∧ narrow p seq a b ≤ b := by
  rw [narrow]
  split
  · exact ⟨h, le_rfl⟩
  · exact ⟨(narrowFrom_mem p seq _ h).1, (narrowFrom_mem p seq _ h).2.le⟩

/-- The rationals increase strictly and lie in the half-open interval. -/
structure Spread (a b : Rat) (rs : List Rat) : Prop where
  increasing : rs.Pairwise (· < ·)
  inside : ∀ r ∈ rs, a < r ∧ r ≤ b

theorem Spread.nil (a b : Rat) : Spread a b [] := ⟨.nil, fun r hr => by cases hr⟩

/-- Lists for adjacent intervals are put together. -/
theorem Spread.append {rs ss : List Rat} (ham : a ≤ m) (hmb : m ≤ b) (hr : Spread a m rs)
    (hs : Spread m b ss) : Spread a b (rs ++ ss) := by
  constructor
  · refine List.pairwise_append.2 ⟨hr.increasing, hs.increasing, fun r hrr s hss => ?_⟩
    exact (hr.inside r hrr).2.trans_lt (hs.inside s hss).1
  · intro r hmem
    rcases List.mem_append.1 hmem with h | h
    · exact ⟨(hr.inside r h).1, (hr.inside r h).2.trans hmb⟩
    · exact ⟨ham.trans_lt (hs.inside r h).1, (hs.inside r h).2⟩

theorem Spread.singleton {r : Rat} (h : a < r ∧ r ≤ b) : Spread a b [r] :=
  ⟨List.pairwise_singleton _ _, fun _ hs => List.mem_singleton.1 hs ▸ h⟩

/-! ## The cases of isolation -/

theorem isolate_of_rootCount_eq_zero (h : rootCount seq a b = 0) (depth : Nat) :
    isolate p seq depth a b = [] := by
  cases depth <;> simp only [isolate, h]

theorem isolate_of_rootCount_eq_one (h : rootCount seq a b = 1) (depth : Nat) :
    isolate p seq depth a b = [narrow p seq a b] := by
  cases depth <;> simp only [isolate, h]

theorem isolate_zero (h : 1 < rootCount seq a b) : isolate p seq 0 a b = [] :=
  isolate.eq_3 p seq a b (by omega) (by omega)

theorem isolate_succ (h : 1 < rootCount seq a b) (depth : Nat) :
    isolate p seq (depth + 1) a b =
      isolate p seq depth a (midpoint a b) ++ isolate p seq depth (midpoint a b) b :=
  isolate.eq_4 p seq a b depth (by omega) (by omega)

/-- The rationals of an interval increase and lie in it. -/
theorem spread_isolate (p : Poly) (seq : List Poly) (depth : Nat) (h : a < b) :
    Spread a b (isolate p seq depth a b) := by
  induction depth generalizing a b with
  | zero =>
    rcases hcount : rootCount seq a b with _ | _ | n
    · rw [isolate_of_rootCount_eq_zero hcount]
      exact .nil a b
    · rw [isolate_of_rootCount_eq_one hcount]
      exact .singleton (narrow_mem p seq h)
    · rw [isolate_zero (by omega)]
      exact .nil a b
  | succ depth ih =>
    rcases hcount : rootCount seq a b with _ | _ | n
    · rw [isolate_of_rootCount_eq_zero hcount]
      exact .nil a b
    · rw [isolate_of_rootCount_eq_one hcount]
      exact .singleton (narrow_mem p seq h)
    · obtain ⟨hleft, hright⟩ := midpoint_mem h
      rw [isolate_succ (by omega)]
      exact .append hleft.le hright.le (ih hleft) (ih hright)

/-! ## No root is left out -/

/-- The real roots in a half-open interval. -/
noncomputable def rootsIn (p : Poly) (a b : Rat) : Finset ℝ :=
  p.realRoots.filter fun r => (a : ℝ) < r ∧ r ≤ b

theorem mem_rootsIn (hp : p.toPolynomial ≠ 0) {r : ℝ} :
    r ∈ rootsIn p a b ↔ p.real.eval r = 0 ∧ (a : ℝ) < r ∧ r ≤ b := by
  rw [rootsIn, Finset.mem_filter, Poly.mem_realRoots hp]

/-- The sign changes count the roots. -/
theorem rootCount_eq_card (hsep : p.toPolynomial.Separable) (h : a < b) :
    rootCount (sturmChain p) a b = (rootsIn p a b).card :=
  rootCount_eq hsep.ne_zero (fun _ => p.eval_derivative_ne_zero hsep) h.le

/-- The roots of an interval are those of its two parts. -/
theorem rootsIn_union (p : Poly) (ham : a ≤ m) (hmb : m ≤ b) :
    rootsIn p a m ∪ rootsIn p m b = rootsIn p a b := by
  have ham' : (a : ℝ) ≤ m := Rat.cast_le.2 ham
  have hmb' : (m : ℝ) ≤ b := Rat.cast_le.2 hmb
  ext r
  simp only [rootsIn, Finset.mem_union, Finset.mem_filter]
  grind

theorem card_rootsIn_add (ham : a ≤ m) (hmb : m ≤ b) :
    (rootsIn p a m).card + (rootsIn p m b).card = (rootsIn p a b).card := by
  rw [← rootsIn_union p ham hmb, Finset.card_union_of_disjoint]
  rw [Finset.disjoint_left]
  intro r hr hr'
  simp only [rootsIn, Finset.mem_filter] at hr hr'
  linarith [hr.2.2, hr'.2.1]

/-- The only root of an interval is the only root of one of its halves. -/
theorem rootsIn_left (hone : rootsIn p a b = {r}) (hmb : m ≤ b)
    (h : (rootsIn p a m).card = 1) : rootsIn p a m = {r} := by
  have hsubset : rootsIn p a m ⊆ rootsIn p a b := fun s hs => by
    rw [rootsIn, Finset.mem_filter] at hs ⊢
    exact ⟨hs.1, hs.2.1, hs.2.2.trans (Rat.cast_le.2 hmb)⟩
  rw [← hone]
  refine Finset.eq_of_subset_of_card_le hsubset ?_
  rw [h, hone, Finset.card_singleton]

theorem rootsIn_right (hone : rootsIn p a b = {r}) (ham : a ≤ m) (hmb : m ≤ b)
    (h : (rootsIn p a m).card ≠ 1) : rootsIn p m b = {r} := by
  have hadd := card_rootsIn_add (p := p) ham hmb
  rw [hone, Finset.card_singleton] at hadd
  have hsubset : rootsIn p m b ⊆ rootsIn p a b := fun s hs => by
    rw [rootsIn, Finset.mem_filter] at hs ⊢
    exact ⟨hs.1, (Rat.cast_le.2 ham).trans_lt hs.2.1, hs.2.2⟩
  rw [← hone]
  refine Finset.eq_of_subset_of_card_le hsubset ?_
  rw [hone, Finset.card_singleton]
  omega

/-- A rational zero in an interval is its only root. -/
theorem eq_of_eval_eq_zero (hsep : p.toPolynomial.Separable) (hone : rootsIn p a b = {r})
    (hm : a < m ∧ m ≤ b) (hzero : p.eval m = 0) : (m : ℝ) = r := by
  have hmem : (m : ℝ) ∈ rootsIn p a b := by
    rw [mem_rootsIn hsep.ne_zero, Poly.eval_real_ratCast, hzero]
    exact ⟨Rat.cast_zero, Rat.cast_lt.2 hm.1, Rat.cast_le.2 hm.2⟩
  rwa [hone, Finset.mem_singleton] at hmem

/-- The width of an interval that two roots share. -/
theorem one_le_width_mul (hsep : p.toPolynomial.Separable) (h : 1 < (rootsIn p a b).card) :
    (1 : ℝ) ≤ (b - a) * 2 ^ separationBits p := by
  obtain ⟨x, hx, y, hy, hxy⟩ := Finset.one_lt_card.1 h
  simp only [rootsIn, Finset.mem_filter, Poly.mem_realRoots hsep.ne_zero] at hx hy
  refine (one_le_abs_sub_mul hsep hx.1 hy.1 hxy).trans ?_
  gcongr
  exact abs_sub_le_iff.2 ⟨by linarith [hx.2.2, hy.2.1], by linarith [hx.2.1, hy.2.2]⟩

/-- An interval that is too narrow for two roots. -/
theorem card_rootsIn_le_one (hsep : p.toPolynomial.Separable)
    (h : (b - a) * 2 ^ separationBits p < (2 : ℝ) ^ 0) : (rootsIn p a b).card ≤ 1 := by
  rw [pow_zero] at h
  exact not_lt.1 fun htwo => h.not_ge (one_le_width_mul hsep htwo)

/-! ## Halving without a limit -/

/-- The rationals that halving an interval gives when it goes on until every part holds at most one
root. -/
inductive Halves (p : Poly) (seq : List Poly) : Rat → Rat → List Rat → Prop
  | none {a b : Rat} (hcount : rootCount seq a b = 0) : Halves p seq a b []
  | one {a b : Rat} (hcount : rootCount seq a b = 1) : Halves p seq a b [narrow p seq a b]
  | halve {a b : Rat} {qs qs' : List Rat} (hcount : 1 < rootCount seq a b)
      (left : Halves p seq a (midpoint a b) qs) (right : Halves p seq (midpoint a b) b qs') :
      Halves p seq a b (qs ++ qs')

/-- An interval with one root at most is not halved. -/
theorem halves_isolate_of_le_one (p : Poly) (hcount : rootCount seq a b ≤ 1) (depth : ℕ) :
    Halves p seq a b (isolate p seq depth a b) := by
  rcases Nat.le_one_iff_eq_zero_or_eq_one.1 hcount with hnone | hone
  · rw [isolate_of_rootCount_eq_zero hnone]
    exact .none hnone
  · rw [isolate_of_rootCount_eq_one hone]
    exact .one hone

/-- The depth cuts nothing off when it suffices for the width. -/
theorem halves_isolate (hsep : p.toPolynomial.Separable) {depth : ℕ} (h : a < b)
    (hdepth : (b - a) * 2 ^ separationBits p < (2 : ℝ) ^ depth) :
    Halves p (sturmChain p) a b (isolate p (sturmChain p) depth a b) := by
  induction depth generalizing a b with
  | zero =>
    refine halves_isolate_of_le_one p ?_ 0
    rw [rootCount_eq_card hsep h]
    exact card_rootsIn_le_one hsep hdepth
  | succ depth ih =>
    by_cases hcount : rootCount (sturmChain p) a b ≤ 1
    · exact halves_isolate_of_le_one p hcount (depth + 1)
    · obtain ⟨hleft, hright⟩ := midpoint_mem h
      have hmid : ((midpoint a b : Rat) : ℝ) = (a + b) / 2 := by
        rw [midpoint]
        push_cast
        rfl
      rw [pow_succ (2 : ℝ) depth] at hdepth
      rw [isolate_succ (by omega)]
      refine .halve (by omega) (ih hleft ?_) (ih hright ?_)
      · rw [hmid]
        linarith
      · rw [hmid]
        linarith

/-! ## The whole line -/

/-- The depth suffices for the interval that holds all roots. -/
theorem separationBits_lt_isolationDepth (hp : p.toPolynomial ≠ 0) :
    p.heightBits + 1 + separationBits p < isolationDepth p := by
  have hdepth : isolationDepth p = 4 * ((p.size + 1) * (p.size + 1)) * (p.heightBits + 2) := rfl
  rw [hdepth, Poly.size_eq hp, separationBits]
  nlinarith [Nat.zero_le (p.heightBits * p.toPolynomial.natDegree),
    Nat.zero_le (p.heightBits * p.toPolynomial.natDegree ^ 2)]

theorem one_le_rootBound (p : Poly) : 1 ≤ rootBound p := by
  have h := (abs_nonneg _).trans (abs_div_leading_le p 0)
  linarith

theorem rootBound_pos (p : Poly) : 0 < rootBound p := zero_lt_one.trans_le (one_le_rootBound p)

/-- The rationals are found in ascending order, so that sorting them changes nothing. -/
theorem isolated_eq (p : Poly) :
    isolated p = isolate p (sturmChain p) (isolationDepth p) (-rootBound p) (rootBound p) := by
  have hspread := spread_isolate p (sturmChain p) (isolationDepth p)
    (neg_lt_self (rootBound_pos p))
  exact List.mergeSort_of_pairwise (hspread.increasing.imp fun h => decide_eq_true h.le)

/-- The rationals increase strictly and lie between the bounds. -/
theorem spread_isolated (p : Poly) : Spread (-rootBound p) (rootBound p) (isolated p) := by
  rw [isolated_eq]
  exact spread_isolate p _ _ (neg_lt_self (rootBound_pos p))

theorem rootsIn_rootBound (hp : p.toPolynomial ≠ 0) :
    rootsIn p (-rootBound p) (rootBound p) = p.realRoots := by
  refine Finset.filter_true_of_mem fun r hr => ?_
  have habs := abs_lt.1 (abs_lt_rootBound hp ((Poly.mem_realRoots hp).1 hr))
  rw [Rat.cast_neg]
  exact ⟨habs.1, habs.2.le⟩

theorem width_mul_lt_isolationDepth (hp : p.toPolynomial ≠ 0) :
    ((rootBound p : Rat) - (-rootBound p : Rat) : ℝ) * 2 ^ separationBits p <
      (2 : ℝ) ^ isolationDepth p := by
  have hbound : (rootBound p : ℝ) ≤ 2 ^ p.heightBits := by exact_mod_cast rootBound_le hp
  have hdepth : (2 : ℝ) ^ (p.heightBits + 1 + separationBits p) < 2 ^ isolationDepth p :=
    pow_lt_pow_right₀ one_lt_two (separationBits_lt_isolationDepth hp)
  refine lt_of_le_of_lt ?_ hdepth
  rw [pow_add]
  gcongr
  push_cast
  rw [pow_succ]
  linarith

/-- The rationals are those that halving the interval that holds all roots gives. -/
theorem halves_isolated (hsep : p.toPolynomial.Separable) :
    Halves p (sturmChain p) (-rootBound p) (rootBound p) (isolated p) := by
  rw [isolated_eq]
  exact halves_isolate hsep (neg_lt_self (rootBound_pos p))
    (width_mul_lt_isolationDepth hsep.ne_zero)

/-- No two of the rationals are equal. -/
theorem nodup_isolated (p : Poly) : (isolated p).Nodup :=
  (spread_isolated p).increasing.imp fun h => h.ne

end MarketAlgebra.Roots
