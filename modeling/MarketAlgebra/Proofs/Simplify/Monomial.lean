import Mathlib.Algebra.BigOperators.Finsupp.Basic
import MarketAlgebra.Proofs.Simplify.Affine
import MarketAlgebra.Proofs.Simplify.Order

/-!
# Monomials in normal form

A monomial is written as the sorted product of its powers of variables (`spelling`), and with a
coefficient as a multiple of that (`term`).  Whatever powers of variables are multiplied in whatever
order, collecting the powers leads to the spelling of their product (`collectPowers_product`),
because the table of exponents only depends on the sum of the exponents (`Tallies`).  So a product
of terms is a term again (`mul_term`), and a pass leaves a term as it is (`step_term`).

The sorted list of powers is the `key` of a monomial: it is what like terms have in common, and
other monomials have other keys (`key_injective`).
-/

namespace MarketAlgebra.Simplify

open MarketAlgebra.Expr

variable {x : String} {e f : Expr} {fs gs : List Expr} {m n : String →₀ ℕ}

/-! ## Products -/

theorem sort_nil : sort [] = [] := List.mergeSort_nil

theorem product_nil : product [] = one := by
  rw [product, List.filter_nil, sort_nil]

/-- The order of the factors does not matter for a product. -/
theorem product_eq_of_perm (h : fs.Perm gs) : product fs = product gs := by
  rw [product, product, sort_eq_of_perm (h.filter _)]

/-- The coefficients of two factors are multiplied, and so are the rest of them. -/
theorem split_mul (a b : Expr) : split (.mul a b) = ((split a).1 * (split b).1,
    product (factors (split a).2 ++ factors (split b).2)) := rfl

/-! ## Powers of variables -/

/-- A variable with a positive exponent. -/
def VariablePower (f : Expr) : Prop := ∃ (x : String) (k : ℕ), 0 < k ∧ f = power (.var x) k

/-- The monomial of a power of a variable. -/
noncomputable def exponents : Expr → String →₀ ℕ
  | .var x => .single x 1
  | .pow (.var x) (.const c) => .single x c.num.toNat
  | _ => 0

theorem exponents_power (x : String) (k : ℕ) : exponents (power (.var x) k) = .single x k := by
  rw [power]
  split
  next hone =>
    obtain rfl : k = 1 := by exact_mod_cast hone
    rfl
  next => rw [exponents, Rat.num_natCast, Int.toNat_natCast]

/-- Simplification never takes a power of a variable apart. -/
theorem VariablePower.atom (hf : VariablePower f) : Atom f := by
  obtain ⟨x, k, hk, rfl⟩ := hf
  rw [power]
  split
  next => exact atom_var x
  next hone =>
    have hzero : (k : Rat) ≠ 0 := Nat.cast_ne_zero.2 hk.ne'
    have hint : (k : Rat).isInt = true := rfl
    exact {
      constant := rfl
      isSum := rfl
      termCount := rfl
      terms := rfl
      neg := rfl
      factors := rfl
      split := rfl
      collectPowers := by
        simp [collectPowers, addFactors, hint, addExponent, hk, power, Nat.cast_eq_one.not.1 hone,
          product, sort_singleton, Expr.isOne, constant?]
      step := by
        simp only [step, pow, powConstant, if_neg hzero, if_neg hone] }

/-! ## Products of powers -/

/-- A product of powers of variables from left to right. -/
inductive LeftProduct : List Expr → Expr → Prop
  | single {f : Expr} (hf : VariablePower f) : LeftProduct [f] f
  | mul {fs : List Expr} {e f : Expr} (he : LeftProduct fs e) (hf : VariablePower f) :
      LeftProduct (fs ++ [f]) (.mul e f)

theorem leftProduct_foldl (he : LeftProduct fs e) (hgs : ∀ g ∈ gs, VariablePower g) :
    LeftProduct (fs ++ gs) (gs.foldl .mul e) := by
  induction gs generalizing fs e with
  | nil => rwa [List.append_nil]
  | cons g gs ih =>
    obtain ⟨hg, hgs⟩ := List.forall_mem_cons.1 hgs
    rw [List.append_cons]
    exact ih (he.mul hg) hgs

/-- No factor is left out of a product of powers of variables. -/
theorem product_eq (hfs : ∀ f ∈ fs, VariablePower f) (h : sort fs = f :: gs) :
    product fs = gs.foldl .mul f := by
  have hfilter : (fs.filter fun f => !f.isOne) = fs :=
    List.filter_eq_self.2 fun f hf => by rw [(hfs f hf).atom.isOne]; rfl
  simp only [product, hfilter, h]

theorem leftProduct_product (hfs : ∀ f ∈ fs, VariablePower f) (hne : fs ≠ []) :
    LeftProduct (sort fs) (product fs) := by
  have hsort : ∀ f ∈ sort fs, VariablePower f := fun f hf => hfs f ((sort_perm fs).mem_iff.1 hf)
  cases h : sort fs with
  | nil => exact absurd (h ▸ sort_perm fs).nil_eq.symm hne
  | cons f gs =>
    rw [product_eq hfs h]
    rw [h] at hsort
    obtain ⟨hf, hgs⟩ := List.forall_mem_cons.1 hsort
    exact leftProduct_foldl (.single hf) hgs

namespace LeftProduct

theorem factors (h : LeftProduct fs e) : Simplify.factors e = fs := by
  induction h with
  | single hf => exact hf.atom.factors
  | mul _ hf ih => rw [Simplify.factors, ih, hf.atom.factors]

theorem variablePower (h : LeftProduct fs e) : ∀ f ∈ fs, VariablePower f := by
  induction h with
  | single hf => exact fun g hg => List.mem_singleton.1 hg ▸ hf
  | mul _ hf ih =>
    intro g hg
    rcases List.mem_append.1 hg with hg | hg
    · exact ih g hg
    · exact List.mem_singleton.1 hg ▸ hf

end LeftProduct

/-- The factors of a product are the sorted ones. -/
theorem factors_product (hfs : ∀ f ∈ fs, VariablePower f) : factors (product fs) = sort fs := by
  rcases eq_or_ne fs [] with rfl | hne
  · rw [product_nil, sort_nil]
    rfl
  · exact (leftProduct_product hfs hne).factors

theorem LeftProduct.split (h : LeftProduct fs e) : Simplify.split e = (1, product fs) := by
  induction h with
  | single hf => rw [hf.atom.split, hf.atom.product]
  | mul he hf ih =>
    rw [split_mul, ih, hf.atom.split, factors_product he.variablePower, hf.atom.factors,
      product_eq_of_perm ((sort_perm _).append_right _), mul_one]

theorem LeftProduct.base (h : LeftProduct fs e) (he : product fs = e) : Base e where
  constant := by cases h with
    | single hf => exact hf.atom.constant
    | mul => rfl
  isSum := by cases h with
    | single hf => exact hf.atom.isSum
    | mul => rfl
  termCount := by cases h with
    | single hf => exact hf.atom.termCount
    | mul => rfl
  terms := by cases h with
    | single hf => exact hf.atom.terms
    | mul => rfl
  neg := by cases h with
    | single hf => exact hf.atom.neg
    | mul => rfl
  split := by rw [h.split, he]
  product_factors := by rw [h.factors, he]

theorem base_product (hfs : ∀ f ∈ fs, VariablePower f) (hne : fs ≠ []) : Base (product fs) :=
  (leftProduct_product hfs hne).base (product_eq_of_perm (sort_perm fs))

/-! ## Collected exponents -/

/-- The table of exponents of a monomial: its bases are variables. -/
abbrev Tallies (table : Exponents) (m : String →₀ ℕ) : Prop :=
  Records Expr.var table fun x => (m x : Rat)

theorem var_injective : Function.Injective Expr.var := fun _ _ h => Expr.var.inj h

theorem tallies_nil : Tallies [] 0 := .nil Expr.var

theorem Tallies.addExponent {table : Exponents} (h : Tallies table m) (x : String) (k : ℕ) :
    Tallies (addExponent (.var x) k table) (m + .single x k) := by
  have hadd := h.addEntry var_injective x k
  rw [← addExponent_eq_addEntry] at hadd
  convert hadd using 2 with y
  rw [Finsupp.add_apply, Finsupp.single_apply, Nat.cast_add, Nat.cast_ite, Nat.cast_zero]
  simp only [eq_comm]

/-- A power of a variable adds to the exponent of the variable. -/
theorem addFactors_power (x : String) (k : ℕ) (table : Exponents) :
    addFactors 1 (power (.var x) k) table = addExponent (.var x) k table := by
  rw [power]
  split
  next hone => rw [hone]; rfl
  next =>
    have hint : (k : Rat).isInt = true := rfl
    rw [addFactors, hint, mul_one]
    rfl

theorem Tallies.addFactors {table : Exponents} (h : Tallies table m) (he : LeftProduct fs e) :
    Tallies (addFactors 1 e table) (m + (fs.map exponents).sum) := by
  induction he with
  | single hf =>
    obtain ⟨x, k, -, rfl⟩ := hf
    rw [addFactors_power, List.map_singleton, List.sum_singleton, exponents_power]
    exact h.addExponent x k
  | mul _ hf ih =>
    obtain ⟨x, k, -, rfl⟩ := hf
    rw [Simplify.addFactors, addFactors_power, List.map_append, List.sum_append, List.map_singleton,
      List.sum_singleton, exponents_power, ← add_assoc]
    exact ih.addExponent x k

/-! ## The spelling of a monomial -/

/-- The powers of variables in a monomial, in no particular order. -/
noncomputable def powers (m : String →₀ ℕ) : List Expr :=
  m.support.toList.map fun x => power (.var x) (m x)

theorem variablePower_of_mem_powers (hf : f ∈ powers m) : VariablePower f := by
  obtain ⟨x, hx, rfl⟩ := List.mem_map.1 hf
  exact ⟨x, m x, Nat.pos_of_ne_zero (Finsupp.mem_support_iff.1 (Finset.mem_toList.1 hx)), rfl⟩

theorem sum_exponents_powers (m : String →₀ ℕ) : ((powers m).map exponents).sum = m := by
  rw [powers, List.map_map]
  simp only [Function.comp_def, exponents_power]
  rw [Finset.sum_map_toList]
  exact Finsupp.sum_single m

/-- The powers above the bar are those in the monomial. -/
theorem Tallies.numerators_perm {table : Exponents} (h : Tallies table m) :
    (numerators table).Perm (powers m) := by
  have hperm := h.filter_perm var_injective (q := fun t => 0 < t.2)
    (fun t ht => (of_decide_eq_true ht).ne') (Finset.nodup_toList m.support) fun x => by
      rw [Finset.mem_toList, Finsupp.mem_support_iff, decide_eq_true_iff, Nat.cast_pos,
        Nat.pos_iff_ne_zero]
  have hpowers := hperm.map fun t => power t.1 t.2
  rwa [List.map_map] at hpowers

theorem Tallies.denominators_eq {table : Exponents} (h : Tallies table m) :
    denominators table = [] := by
  rw [denominators, List.map_eq_nil_iff, List.filter_eq_nil_iff]
  intro t ht hneg
  rw [decide_eq_true_iff] at hneg
  obtain ⟨x, rfl⟩ := (h.mem_iff hneg.ne).1 ht
  exact hneg.not_ge (Nat.cast_nonneg (m x))

/-- The product of the powers in a monomial. -/
noncomputable def spelling (m : String →₀ ℕ) : Expr := product (powers m)

theorem spelling_zero : spelling 0 = one := by
  rw [spelling, powers, Finsupp.support_zero, Finset.toList_empty, List.map_nil, product_nil]

theorem spelling_single {k : ℕ} (hk : k ≠ 0) : spelling (.single x k) = power (.var x) k := by
  have hatom : Atom (power (.var x) k) := VariablePower.atom ⟨x, k, Nat.pos_of_ne_zero hk, rfl⟩
  rw [spelling, powers, Finsupp.support_single x hk, Finset.toList_singleton,
    List.map_singleton, Finsupp.single_eq_same, hatom.product]

theorem powers_ne_nil (hm : m ≠ 0) : powers m ≠ [] := by
  intro h
  have hsum := sum_exponents_powers m
  rw [h] at hsum
  exact hm hsum.symm

theorem base_spelling (hm : m ≠ 0) : Base (spelling m) :=
  base_product (fun _ => variablePower_of_mem_powers) (powers_ne_nil hm)

/-- Powers of one variable are collected. -/
theorem collectPowers_product (hfs : ∀ f ∈ fs, VariablePower f) :
    collectPowers (product fs) = spelling (fs.map exponents).sum := by
  have htallies : Tallies (addFactors 1 (product fs) []) (fs.map exponents).sum := by
    rcases eq_or_ne fs [] with rfl | hne
    · rw [product_nil]
      exact tallies_nil
    · have h := tallies_nil.addFactors (leftProduct_product hfs hne)
      rwa [zero_add, ((sort_perm fs).map _).sum_eq] at h
  rw [collectPowers_eq, htallies.denominators_eq, spelling,
    ← product_eq_of_perm htallies.numerators_perm]
  rfl

theorem collectPowers_spelling (m : String →₀ ℕ) : collectPowers (spelling m) = spelling m := by
  rw [spelling, collectPowers_product fun _ => variablePower_of_mem_powers, sum_exponents_powers,
    spelling]

/-! ## Keys -/

/-- The sorted list of the powers in a monomial, which tells like terms apart from others. -/
noncomputable def key (m : String →₀ ℕ) : List Expr := sort (powers m)

theorem factors_spelling (m : String →₀ ℕ) : factors (spelling m) = key m :=
  factors_product fun _ => variablePower_of_mem_powers

theorem product_key (m : String →₀ ℕ) : product (key m) = spelling m :=
  product_eq_of_perm (sort_perm _)

theorem sort_key (m : String →₀ ℕ) : sort (key m) = key m := sort_eq_of_perm (sort_perm _)

theorem variablePower_of_mem_key (hf : f ∈ key m) : VariablePower f :=
  variablePower_of_mem_powers ((sort_perm _).mem_iff.1 hf)

theorem sum_exponents_key (m : String →₀ ℕ) : ((key m).map exponents).sum = m := by
  rw [key, ((sort_perm _).map _).sum_eq, sum_exponents_powers]

theorem key_injective : Function.Injective key := by
  intro m n h
  rw [← sum_exponents_key m, h, sum_exponents_key]

theorem key_zero : key 0 = [] := by
  rw [← factors_spelling, spelling_zero]
  rfl

/-! ## Terms -/

/-- A monomial with a coefficient. -/
noncomputable def term (c : Rat) (m : String →₀ ℕ) : Expr := scaled c (spelling m)

variable {c d : Rat}

theorem term_zero_left (m : String →₀ ℕ) : term 0 m = zero := by
  rw [term, scaled, if_pos rfl]

theorem term_zero_right (c : Rat) : term c 0 = .const c := by
  rw [term, spelling_zero, scaled]
  split
  next h => rw [h]; rfl
  next => rfl

theorem term_one_left (m : String →₀ ℕ) : term 1 m = spelling m := by
  rcases eq_or_ne m 0 with rfl | hm
  · rw [term_zero_right, spelling_zero]
    rfl
  · rcases (base_spelling hm).scaled_cases one_ne_zero with ⟨-, h⟩ | ⟨h, -⟩ | ⟨h, -⟩
    · exact h
    · exact absurd h (by decide)
    · exact absurd rfl h

theorem split_term (hc : c ≠ 0) (m : String →₀ ℕ) : split (term c m) = (c, spelling m) := by
  rcases eq_or_ne m 0 with rfl | hm
  · rw [term_zero_right, spelling_zero, split]
  · exact (base_spelling hm).split_scaled hc

/-- A term is a constant, or it has a coefficient and a factor. -/
theorem term_cases (c : Rat) (m : String →₀ ℕ) :
    (c = 0 ∨ m = 0) ∧ term c m = .const c ∨ c ≠ 0 ∧ m ≠ 0 := by
  rcases eq_or_ne c 0 with rfl | hc
  · exact .inl ⟨.inl rfl, term_zero_left m⟩
  rcases eq_or_ne m 0 with rfl | hm
  · exact .inl ⟨.inr rfl, term_zero_right c⟩
  · exact .inr ⟨hc, hm⟩

/-- A term is no sum and has no terms but itself. -/
theorem isSum_term (c : Rat) (m : String →₀ ℕ) :
    isSum (term c m) = false ∧ termCount (term c m) = 1 := by
  rcases term_cases c m with ⟨-, h⟩ | ⟨hc, hm⟩
  · rw [h]
    exact ⟨rfl, rfl⟩
  · exact ((base_spelling hm).constant?_scaled hc).2

/-- Only a term without variables is a constant. -/
theorem constant?_term (hc : c ≠ 0) (hm : m ≠ 0) : (term c m).constant? = none :=
  ((base_spelling hm).constant?_scaled hc).1

theorem VariablePower.eq_term (hf : VariablePower f) : f = term 1 (exponents f) := by
  obtain ⟨x, k, hk, rfl⟩ := hf
  rw [exponents_power, term_one_left, spelling_single hk.ne']

/-- The coefficient and the monomial of a term are determined. -/
theorem term_injective (hc : c ≠ 0) (hd : d ≠ 0) (h : term c m = term d n) : c = d ∧ m = n := by
  have hsplit := congrArg split h
  rw [split_term hc, split_term hd, Prod.mk.injEq] at hsplit
  have hkey := congrArg factors hsplit.2
  rw [factors_spelling, factors_spelling] at hkey
  exact ⟨hsplit.1, key_injective hkey⟩

theorem isZero_term (hc : c ≠ 0) (m : String →₀ ℕ) : (term c m).isZero = false := by
  rw [← Bool.not_eq_true, isZero_iff]
  intro h
  have hsplit := split_term hc m
  rw [h] at hsplit
  exact hc (congrArg Prod.fst hsplit).symm

/-! ## Products of terms -/

theorem mulFactors_zero_left (y : Expr) : mulFactors zero y = zero := by
  cases y with
  | const c => exact congrArg Expr.const (zero_mul c)
  | _ => rfl

theorem mulFactors_zero_right (x : Expr) : mulFactors x zero = zero := by
  cases x with
  | const c => exact congrArg Expr.const (mul_zero c)
  | _ => rfl

/-- Coefficients are multiplied and exponents added when not both terms are constants. -/
theorem mulFactors_term_of_constant? (hc : c ≠ 0) (hd : d ≠ 0)
    (h : (term c m).constant? = none ∨ (term d n).constant? = none) :
    mulFactors (term c m) (term d n) = term (c * d) (m + n) := by
  rw [mulFactors_eq h, isZero_term hc, isZero_term hd]
  simp only [Bool.or_self, Bool.false_eq_true, if_false]
  split_ifs with hone hone'
  · rw [isOne_iff, ← term_zero_right] at hone
    obtain ⟨rfl, rfl⟩ := term_injective hc one_ne_zero hone
    rw [one_mul, zero_add]
  · rw [isOne_iff, ← term_zero_right] at hone'
    obtain ⟨rfl, rfl⟩ := term_injective hd one_ne_zero hone'
    rw [mul_one, add_zero]
  · have hfactors : ∀ f ∈ key m ++ key n, VariablePower f := fun f hf =>
      (List.mem_append.1 hf).elim variablePower_of_mem_key variablePower_of_mem_key
    rw [split_mul, split_term hc, split_term hd, factors_spelling, factors_spelling,
      collectPowers_product hfactors, List.map_append, List.sum_append, sum_exponents_key,
      sum_exponents_key, term]

theorem mulFactors_term (c d : Rat) (m n : String →₀ ℕ) :
    mulFactors (term c m) (term d n) = term (c * d) (m + n) := by
  rcases eq_or_ne c 0 with rfl | hc
  · rw [term_zero_left, mulFactors_zero_left, zero_mul, term_zero_left]
  rcases eq_or_ne d 0 with rfl | hd
  · rw [term_zero_left, mulFactors_zero_right, mul_zero, term_zero_left]
  rcases eq_or_ne m 0 with rfl | hm
  · rcases eq_or_ne n 0 with rfl | hn
    · rw [term_zero_right, term_zero_right, add_zero, term_zero_right]
      rfl
    · exact mulFactors_term_of_constant? hc hd (.inr (constant?_term hd hn))
  · exact mulFactors_term_of_constant? hc hd (.inl (constant?_term hc hm))

theorem mul_term (c d : Rat) (m n : String →₀ ℕ) :
    mul (term c m) (term d n) = term (c * d) (m + n) := by
  rw [mul_of_not_isSum (isSum_term c m).1 (isSum_term d n).1, mulFactors_term]

/-! ## Passes -/

/-- A pass collects the powers of a product. -/
theorem LeftProduct.step (h : LeftProduct fs e) :
    Simplify.step e = spelling (fs.map exponents).sum := by
  induction h with
  | single hf =>
    rw [hf.atom.step, List.map_singleton, List.sum_singleton, ← term_one_left, ← hf.eq_term]
  | @mul fs _ f _ hf ih =>
    calc Simplify.mul (Simplify.step _) (Simplify.step f)
        = Simplify.mul (term 1 (fs.map exponents).sum) (term 1 (exponents f)) := by
          rw [ih, hf.atom.step, term_one_left, ← hf.eq_term]
      _ = spelling ((fs ++ [f]).map exponents).sum := by
          rw [mul_term, mul_one, term_one_left, List.map_append, List.sum_append,
            List.map_singleton, List.sum_singleton]

theorem step_spelling (m : String →₀ ℕ) : step (spelling m) = spelling m := by
  rcases eq_or_ne m 0 with rfl | hm
  · rw [spelling_zero]
    rfl
  · have h := leftProduct_product (fun _ => variablePower_of_mem_powers) (powers_ne_nil hm)
    rw [spelling, h.step, ((sort_perm _).map _).sum_eq, sum_exponents_powers, spelling]

/-- A pass does not change a term. -/
theorem step_term (c : Rat) (m : String →₀ ℕ) : step (term c m) = term c m := by
  rcases term_cases c m with ⟨-, h⟩ | ⟨hc, hm⟩
  · rw [h, step]
  rcases (base_spelling hm).scaled_cases hc with ⟨-, h⟩ | ⟨-, h⟩ | ⟨-, -, h⟩
  · rw [term, h, step_spelling]
  · rw [term, h, step, step_spelling, (base_spelling hm).neg]
  · have hmul := mul_term c 1 0 m
    rw [term_zero_right, term_one_left, mul_one, zero_add] at hmul
    rw [term, h, step, step, step_spelling, hmul, term, h]

end MarketAlgebra.Simplify
