import Mathlib.Tactic.Ring
import MarketAlgebra.Proofs.Simplify.Pass
import MarketAlgebra.Proofs.Simplify.Scaled

/-!
# Affine expressions

An `Atom` is an expression that simplification treats as one piece: it is a term, a factor and a
base of its own.  Variables are atoms, and so is a square root of a constant.  On the expressions
`m * u + k` over an atom `u` the operations of the simplifier compute with slopes and constant
terms: `affine u m k` is the form in which such an expression is written, sums and differences of
affine expressions are affine, and so are products with a constant.  In particular the written form
is a fixed point of simplification.

The table of coefficients that a sum goes through has two rows at most here.  `Adds` says what a
list of terms contributes to them, so a sum is computed by adding up contributions, whatever the
shapes of its operands are.
-/

namespace MarketAlgebra

open MarketAlgebra.Expr

namespace Simplify

/-! ## Atoms -/

/-- An expression that the simplifier never takes apart. -/
structure Atom (u : Expr) : Prop where
  constant : u.constant? = none
  isSum : isSum u = false
  termCount : termCount u = 1
  terms : terms u = [u]
  neg : neg u = .neg u
  factors : factors u = [u]
  split : split u = (1, u)
  collectPowers : collectPowers u = u
  step : step u = u

theorem sort_singleton (u : Expr) : Expr.sort [u] = [u] := List.mergeSort_singleton u

/-- A single factor with exponent one is collected as it is. -/
theorem collectPowers_of_addFactors {u : Expr} (hone : u.isOne = false)
    (h : addFactors 1 u [] = [(u, 1)]) : collectPowers u = u := by
  simp [collectPowers, h, product, power, hone, sort_singleton]

theorem atom_var (x : String) : Atom (.var x) where
  constant := rfl
  isSum := rfl
  termCount := rfl
  terms := rfl
  neg := rfl
  factors := rfl
  split := rfl
  collectPowers := collectPowers_of_addFactors rfl rfl
  step := rfl

/-- The square root of a constant stays as it is. -/
theorem atom_sqrt (c : Rat) : Atom (Expr.sqrt (.const c)) where
  constant := rfl
  isSum := rfl
  termCount := rfl
  terms := rfl
  neg := rfl
  factors := rfl
  split := rfl
  collectPowers := by
    have hint : (1 / 2 : Rat).isInt = false := by decide +kernel
    refine collectPowers_of_addFactors rfl ?_
    rw [Expr.sqrt, addFactors, hint]
    rfl
  step := by
    have hzero : (1 / 2 : Rat) ≠ 0 := by norm_num
    have hone : (1 / 2 : Rat) ≠ 1 := by norm_num
    have hint : (1 / 2 : Rat).isInt = false := by decide +kernel
    rw [Expr.sqrt, Simplify.step, Simplify.step, Simplify.step, pow, powConstant, if_neg hzero,
      if_neg hone, powConstants, hint]
    rfl

variable {u : Expr}

theorem Atom.isOne (h : Atom u) : u.isOne = false := by
  rw [Expr.isOne, h.constant]
  rfl

theorem Atom.isZero (h : Atom u) : u.isZero = false := by
  rw [Expr.isZero, h.constant]
  rfl

theorem Atom.product (h : Atom u) : product [u] = u := by
  simp [Simplify.product, h.isOne, sort_singleton]

theorem Atom.base (h : Atom u) : Base u where
  constant := h.constant
  isSum := h.isSum
  termCount := h.termCount
  terms := h.terms
  neg := h.neg
  split := h.split
  product_factors := by rw [h.factors, h.product]

/-! ## Written forms -/

/-- The expression `m * u + k` as the simplifier writes it. -/
def affine (u : Expr) (m k : Rat) : Expr :=
  if m = 0 then .const k
  else if k = 0 then scaled m u
  else .add (scaled m u) (.const k)

theorem affine_zero (u : Expr) (k : Rat) : affine u 0 k = .const k := if_pos rfl

theorem affine_one (h : Atom u) : affine u 1 0 = u := by
  rw [affine, if_neg one_ne_zero, if_pos rfl]
  rcases h.base.scaled_cases one_ne_zero with ⟨-, hs⟩ | ⟨hm, -⟩ | ⟨hm, -⟩
  · exact hs
  · exact absurd hm (by decide)
  · exact absurd rfl hm

/-! ## Sums -/

/-- A table with a coefficient for `u`, a constant term, and nothing else. -/
structure Rows (u : Expr) (table : Coefficients) (m k : Rat) : Prop where
  keys : ∀ row ∈ table, row.1 = [u] ∨ row.1 = []
  nodup : (table.map (·.1)).Nodup
  slope : (table.lookup [u]).getD 0 = m
  constant : (table.lookup []).getD 0 = k

theorem rows_nil (u : Expr) : Rows u [] 0 0 := ⟨by simp, .nil, rfl, rfl⟩

/-- A coefficient added to a key is found there, and other keys keep theirs. -/
theorem lookup_addCoefficient (key k : List Expr) (c : Rat) (table : Coefficients) :
    ((addCoefficient key c table).lookup k).getD 0 =
      (table.lookup k).getD 0 + if k = key then c else 0 := by
  rw [addCoefficient_eq_addEntry]
  exact total_addEntry key k c table

theorem nodup_addCoefficient (key : List Expr) (c : Rat) {table : Coefficients}
    (h : (table.map (·.1)).Nodup) : ((addCoefficient key c table).map (·.1)).Nodup := by
  rw [addCoefficient_eq_addEntry]
  exact nodup_addEntry key c h

theorem Rows.addCoefficient {table : Coefficients} {m k : Rat} (h : Rows u table m k)
    {key : List Expr} (hkey : key = [u] ∨ key = []) (c : Rat) :
    Rows u (addCoefficient key c table) (m + if [u] = key then c else 0)
      (k + if [] = key then c else 0) where
  keys := fun row hrow => by
    rcases mem_keys_addCoefficient.1 (List.mem_map_of_mem (f := (·.1)) hrow) with heq | hmem
    · rwa [heq]
    · obtain ⟨row', hrow', heq⟩ := List.mem_map.1 hmem
      exact heq ▸ h.keys row' hrow'
  nodup := nodup_addCoefficient key c h.nodup
  slope := by rw [lookup_addCoefficient, h.slope]
  constant := by rw [lookup_addCoefficient, h.constant]

/-- What a list of terms adds to the coefficient of `u` and to the constant term. -/
def Adds (u : Expr) (ts : List Expr) (m k : Rat) : Prop :=
  ∀ table m' k', Rows u table m' k' → Rows u (ts.foldl addTerm table) (m' + m) (k' + k)

variable {ts us : List Expr} {m m' k k' c : Rat}

theorem Adds.append (h : Adds u ts m k) (h' : Adds u us m' k') :
    Adds u (ts ++ us) (m + m') (k + k') := by
  intro table a b hrows
  rw [List.foldl_append, ← add_assoc, ← add_assoc]
  exact h' _ _ _ (h _ _ _ hrows)

/-- A term with a coefficient and an atom. -/
theorem adds_of_split (h : Atom u) {t : Expr} (ht : split t = (m, u)) : Adds u [t] m 0 := by
  intro table a b hrows
  have hkey : Expr.sort (factors (collectPowers u)) = [u] := by
    rw [h.collectPowers, h.factors, sort_singleton]
  rw [List.foldl_cons, List.foldl_nil, addTerm, ht]
  simp only [hkey]
  split
  next hm => simpa [hm] using hrows
  next => simpa using hrows.addCoefficient (.inl rfl) m

theorem adds_const (u : Expr) (c : Rat) : Adds u [.const c] 0 c := by
  intro table a b hrows
  have hkey : Expr.sort (factors (collectPowers one)) = [] := by decide +kernel
  rw [List.foldl_cons, List.foldl_nil, addTerm, split]
  simp only [hkey]
  split
  next hc => simpa [hc] using hrows
  next => simpa using hrows.addCoefficient (.inr rfl) c

theorem adds_affine (h : Atom u) (m k : Rat) : Adds u (terms (affine u m k)) m k := by
  rw [affine]
  split
  next hm =>
    rw [hm]
    exact adds_const u k
  next hm =>
    obtain ⟨t, ht, hsplit⟩ := h.base.terms_scaled hm
    have hadds := adds_of_split h hsplit
    split
    next hk => rwa [ht, hk]
    next =>
      have hsum := hadds.append (adds_const u k)
      rw [add_zero, zero_add] at hsum
      rwa [terms, ht]

/-- The terms of a negation are the negated terms. -/
theorem terms_neg_of_ne_neg {e : Expr} (h : ∀ d, e ≠ .neg d) :
    terms (neg e) = (terms e).map neg := by
  cases e with
  | neg d => exact absurd rfl (h d)
  | _ => rfl

theorem adds_neg_affine (h : Atom u) (m k : Rat) :
    Adds u (terms (neg (affine u m k))) (-m) (-k) := by
  rw [affine]
  split
  next hm =>
    rw [hm, neg_zero]
    exact adds_const u (-k)
  next hm =>
    split
    next hk =>
      obtain ⟨t, ht, hsplit⟩ := h.base.terms_neg_scaled hm
      rw [ht, hk, neg_zero]
      exact adds_of_split h hsplit
    next =>
      obtain ⟨t, ht, hsplit⟩ := h.base.terms_scaled hm
      have hadds := (adds_of_split h (split_neg hsplit)).append (adds_const u (-k))
      rw [terms_neg_of_ne_neg (by simp), terms, ht]
      rwa [add_zero, zero_add] at hadds

/-- The rows of a table that stand for terms with `u`. -/
theorem Rows.filter_eq {table : Coefficients} (h : Rows u table m k) :
    (table.filter fun r => !r.1.isEmpty && r.2 != 0) = if m = 0 then [] else [([u], m)] := by
  induction table generalizing k with
  | nil => rw [← h.slope]; rfl
  | cons row table ih =>
    obtain ⟨hnew, hnodup⟩ := List.nodup_cons.1 h.nodup
    have hkeys := List.forall_mem_cons.1 h.keys
    have hslope := h.slope
    obtain ⟨key, c⟩ := row
    rcases hkeys.1 with rfl | rfl
    · have hrest : (table.filter fun r => !r.1.isEmpty && r.2 != 0) = [] := by
        refine List.filter_eq_nil_iff.2 fun r hr => ?_
        rcases hkeys.2 r hr with hu | hu
        · exact absurd (List.mem_map.2 ⟨r, hr, hu⟩) hnew
        · simp [hu]
      obtain rfl : c = m := by simpa using hslope
      by_cases hc : c = 0 <;> simp [hrest, hc]
    · have hrest : Rows u table m ((table.lookup []).getD 0) :=
        ⟨hkeys.2, hnodup, by simpa [List.lookup_cons] using hslope, rfl⟩
      simpa [List.filter_cons] using ih hrest

/-- A table is written as the affine expression of its two entries. -/
theorem ofCoefficients_eq (h : Atom u) {table : Coefficients} (hrows : Rows u table m k) :
    ofCoefficients table = affine u m k := by
  rw [ofCoefficients]
  simp only [hrows.filter_eq, hrows.constant]
  rw [affine]
  by_cases hm : m = 0
  · by_cases hk : k = 0 <;> simp [hm, hk, sum, Expr.zero]
  · by_cases hk : k = 0 <;> simp [hm, hk, sum, h.product]

/-- A sum is the affine expression of what its two sides contribute. -/
theorem add_eq_affine (h : Atom u) {x y : Expr} (hx : Adds u (terms x) m k)
    (hy : Adds u (terms y) m' k') : add x y = affine u (m + m') (k + k') := by
  have hrows := hx.append hy _ _ _ (rows_nil u)
  rw [zero_add, zero_add] at hrows
  exact ofCoefficients_eq h hrows

theorem add_affine (h : Atom u) (m k m' k' : Rat) :
    add (affine u m k) (affine u m' k') = affine u (m + m') (k + k') :=
  add_eq_affine h (adds_affine h m k) (adds_affine h m' k')

theorem sub_affine (h : Atom u) (m k m' k' : Rat) :
    sub (affine u m k) (affine u m' k') = affine u (m - m') (k - k') := by
  rw [sub, sub_eq_add_neg, sub_eq_add_neg]
  exact add_eq_affine h (adds_affine h m k) (adds_neg_affine h m' k')

/-! ## Products -/

theorem distributeRight_of_not_isSum (x : Expr) {y : Expr} (h : isSum y = false) :
    distributeRight x y = mulFactors x y := by
  cases y with
  | add | sub => cases h
  | _ => rfl

theorem distribute_of_not_isSum (y : Expr) {x : Expr} (h : isSum x = false) :
    distribute y x = distributeRight x y := by
  cases x with
  | add | sub => cases h
  | _ => rfl

/-- A product is distributed when it has few terms. -/
theorem mul_eq_distribute {x y : Expr} (h : termCount x * termCount y ≤ distributionLimit) :
    mul x y = distribute y x := by
  rw [mul, if_neg (by simp [h])]

/-- Two expressions without terms are multiplied as factors. -/
theorem mul_of_not_isSum {x y : Expr} (hx : isSum x = false) (hy : isSum y = false) :
    mul x y = mulFactors x y := by
  rw [mul, hx, hy, distribute_of_not_isSum _ hx, distributeRight_of_not_isSum _ hy]
  rfl

theorem mul_const_const (c d : Rat) : mul (.const c) (.const d) = .const (c * d) := rfl

theorem affine_of_ne_zero (u : Expr) (hm : m ≠ 0) : affine u m 0 = scaled m u := by
  rw [affine, if_neg hm, if_pos rfl]

theorem mulFactors_eq {x y : Expr} (h : x.constant? = none ∨ y.constant? = none) :
    mulFactors x y =
      if x.isZero || y.isZero then zero
      else if x.isOne then y
      else if y.isOne then x
      else scaled (split (.mul x y)).1 (collectPowers (split (.mul x y)).2) := by
  rw [mulFactors]
  split
  next c d hc hd => rcases h with h | h <;> simp [h] at hc hd
  next => rfl

/-- A constant, on either side, multiplies the coefficient of an atom. -/
theorem mulFactors_scaled (h : Atom u) (c : Rat) (hm : m ≠ 0) :
    mulFactors (.const c) (scaled m u) = affine u (c * m) 0 ∧
      mulFactors (scaled m u) (.const c) = affine u (c * m) 0 := by
  obtain ⟨hconst, -, -⟩ := h.base.constant?_scaled hm
  have hzero : (scaled m u).isZero = false := by rw [Expr.isZero, hconst]; rfl
  have hone : (scaled m u).isOne = false := by rw [Expr.isOne, hconst]; rfl
  rw [mulFactors_eq (.inr hconst), mulFactors_eq (.inl hconst), hzero, hone]
  by_cases hc : c = 0
  · simp [hc, affine, Expr.zero]
  by_cases hc1 : c = 1
  · simp [hc1, affine_of_ne_zero u hm]
  have hsplit : split (.mul (.const c) (scaled m u)) = (c * m, u) ∧
      split (.mul (scaled m u) (.const c)) = (c * m, u) := by
    simp [split, h.base.split_scaled hm, factors, h.factors, h.product, Expr.one, mul_comm m]
  rw [hsplit.1, hsplit.2, h.collectPowers, affine_of_ne_zero u (mul_ne_zero hc hm)]
  simp [hc, hc1]

theorem mul_const_affine (h : Atom u) (c m k : Rat) :
    mul (.const c) (affine u m k) = affine u (c * m) (c * k) := by
  rw [affine]
  split
  next hm => rw [hm, mul_zero, affine_zero, mul_const_const]
  next hm =>
    obtain ⟨-, hsum, hcount⟩ := h.base.constant?_scaled hm
    split
    next hk => rw [mul_of_not_isSum rfl hsum, (mulFactors_scaled h c hm).1, hk, mul_zero]
    next =>
      have hdistribute : mul (.const c) (.add (scaled m u) (.const k)) =
          add (mulFactors (.const c) (scaled m u)) (.const (c * k)) := by
        rw [mul_eq_distribute (by simp [termCount, hcount, distributionLimit]),
          distribute_of_not_isSum _ rfl, distributeRight, distributeRight_of_not_isSum _ hsum]
        rfl
      rw [hdistribute, (mulFactors_scaled h c hm).1, ← affine_zero u (c * k), add_affine h,
        add_zero, zero_add]

theorem mul_affine_const (h : Atom u) (c m k : Rat) :
    mul (affine u m k) (.const c) = affine u (c * m) (c * k) := by
  rw [affine]
  split
  next hm => rw [hm, mul_zero, affine_zero, mul_const_const, mul_comm]
  next hm =>
    obtain ⟨-, hsum, hcount⟩ := h.base.constant?_scaled hm
    split
    next hk => rw [mul_of_not_isSum hsum rfl, (mulFactors_scaled h c hm).2, hk, mul_zero]
    next =>
      have hdistribute : mul (.add (scaled m u) (.const k)) (.const c) =
          add (mulFactors (scaled m u) (.const c)) (.const (k * c)) := by
        rw [mul_eq_distribute (by simp [termCount, hcount, distributionLimit]), distribute,
          distribute_of_not_isSum _ hsum, distributeRight_of_not_isSum _ rfl]
        rfl
      rw [hdistribute, (mulFactors_scaled h c hm).2, ← affine_zero u (k * c), add_affine h,
        add_zero, zero_add, mul_comm k]

/-! ## Passes -/

theorem step_const_eq_affine (u : Expr) (c : Rat) : step (.const c) = affine u 0 c :=
  (affine_zero u c).symm

theorem step_atom_eq_affine (h : Atom u) : step u = affine u 1 0 := by
  rw [h.step, affine_one h]

section

variable {a b : Expr}

theorem step_add_eq_affine (h : Atom u) (ha : step a = affine u m k)
    (hb : step b = affine u m' k') : step (.add a b) = affine u (m + m') (k + k') := by
  rw [step, ha, hb, add_affine h]

theorem step_sub_eq_affine (h : Atom u) (ha : step a = affine u m k)
    (hb : step b = affine u m' k') : step (.sub a b) = affine u (m - m') (k - k') := by
  rw [step, ha, hb, sub_affine h]

theorem step_const_mul_eq_affine (h : Atom u) (c : Rat) (hb : step b = affine u m k) :
    step (.mul (.const c) b) = affine u (c * m) (c * k) := by
  rw [step, step, hb, mul_const_affine h]

theorem step_mul_const_eq_affine (h : Atom u) (c : Rat) (ha : step a = affine u m k) :
    step (.mul a (.const c)) = affine u (c * m) (c * k) := by
  rw [step, step, ha, mul_affine_const h]

end

theorem step_scaled (h : Atom u) (hm : m ≠ 0) : step (scaled m u) = scaled m u := by
  rcases h.base.scaled_cases hm with ⟨-, hs⟩ | ⟨-, hs⟩ | ⟨-, -, hs⟩
  · rw [hs, h.step]
  · rw [hs, step, h.step, h.neg]
  · rw [hs, step, h.step, step, ← hs]
    have hproduct := mul_const_affine h m 1 0
    rwa [affine_one h, mul_one, mul_zero, affine_of_ne_zero u hm] at hproduct

/-- The written form of an affine expression is not changed by a pass. -/
theorem step_affine (h : Atom u) (m k : Rat) : step (affine u m k) = affine u m k := by
  rw [affine]
  split
  next => rfl
  next hm =>
    split
    next => exact step_scaled h hm
    next hk =>
      rw [step, step_scaled h hm, ← affine_of_ne_zero u hm, step, ← affine_zero u k, add_affine h,
        add_zero, zero_add, affine, if_neg hm, if_neg hk, affine_of_ne_zero u hm, affine_zero]

end Simplify

/-- An expression that a pass makes affine is simplified by this pass. -/
theorem simplify_of_step_eq_affine {u e : Expr} {m k : Rat} (h : Simplify.Atom u)
    (he : Simplify.step e = Simplify.affine u m k) : simplify e = Simplify.affine u m k :=
  simplify_eq_of_step he (Simplify.step_affine h m k)

theorem simplify_affine {u : Expr} (h : Simplify.Atom u) (m k : Rat) :
    simplify (Simplify.affine u m k) = Simplify.affine u m k :=
  simplify_of_step_eq_affine h (Simplify.step_affine h m k)

/-- A constant plus a multiple of an atom is written in one pass. -/
theorem simplify_const_add_mul {u : Expr} (h : Simplify.Atom u) (m k : Rat) :
    simplify (.add (.const k) (.mul (.const m) u)) = Simplify.affine u m k := by
  refine simplify_of_step_eq_affine h ?_
  have hsum := Simplify.step_add_eq_affine h (Simplify.step_const_eq_affine u k)
    (Simplify.step_const_mul_eq_affine h m (Simplify.step_atom_eq_affine h))
  rwa [mul_one, mul_zero, zero_add, add_zero] at hsum

end MarketAlgebra
