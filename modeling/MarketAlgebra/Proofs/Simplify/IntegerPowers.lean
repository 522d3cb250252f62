import MarketAlgebra.Proofs.Simplify.Constant

/-!
# Integer powers stay integer powers

An expression of one variable in which only integers are exponents is a rational function, and a
simplification does not lead out of these expressions (`integerPowers_simplify`).  A pass also turns
the exponents into constants, when it can compute them (`Simplify.integerPowers_step`): the rules of
differentiation leave differences such as `-(2) - 1` in an exponent.  So it is enough that the
exponents are computed to integers (`integerPowers_simplify_of_computed`).

Nothing is said about values here.  An expression may divide by zero, and what is made of it is then
of the same form.
-/

namespace MarketAlgebra

namespace Expr

/-- An expression of the variable `x` and constants without functions, in which every exponent is
of a given kind. -/
def PowersIn (x : String) (Exponent : Expr → Prop) : Expr → Prop
  | .var name => name = x
  | .const _ => True
  | .add a b | .sub a b | .mul a b | .div a b => a.PowersIn x Exponent ∧ b.PowersIn x Exponent
  | .pow a b => a.PowersIn x Exponent ∧ Exponent b
  | .neg a => a.PowersIn x Exponent
  | .call _ _ => False

/-- Every exponent is an integer constant. -/
abbrev IntegerPowers (x : String) : Expr → Prop :=
  PowersIn x fun b => ∃ k : ℤ, b = .const k

/-- Every exponent is computed to an integer constant by a pass. -/
abbrev ComputedPowers (x : String) : Expr → Prop :=
  PowersIn x fun b => ∃ k : ℤ, b.rational? = some (k : Rat)

variable {x : String} {e : Expr}

theorem PowersIn.mono {p q : Expr → Prop} (h : e.PowersIn x p) (hpq : ∀ b, p b → q b) :
    e.PowersIn x q := by
  induction e with
  | var name | const c => exact h
  | add a b iha ihb | sub a b iha ihb | mul a b iha ihb | div a b iha ihb =>
    exact ⟨iha h.1, ihb h.2⟩
  | pow a b iha _ => exact ⟨iha h.1, hpq b h.2⟩
  | neg a ih => exact ih h
  | call f a => exact h

theorem IntegerPowers.computed (h : e.IntegerPowers x) : e.ComputedPowers x :=
  h.mono fun _ ⟨k, hk⟩ => ⟨k, hk ▸ rfl⟩

end Expr

namespace Simplify

open MarketAlgebra.Expr

variable {x : String} {a b e : Expr}

/-! ## Products -/

theorem integerPowers_neg (h : e.IntegerPowers x) : (neg e).IntegerPowers x := by
  rw [neg.eq_def]
  split
  · trivial
  · exact h
  · exact h

theorem integerPowers_factors (h : e.IntegerPowers x) :
    ∀ f ∈ factors e, f.IntegerPowers x := by
  induction e with
  | mul a b iha ihb => exact List.forall_mem_append.2 ⟨iha h.1, ihb h.2⟩
  | _ =>
    simp only [factors]
    split
    · exact List.forall_mem_nil _
    · exact List.forall_mem_singleton.2 h

theorem integerPowers_foldl_mul {f : Expr} {fs : List Expr} (hf : f.IntegerPowers x)
    (hfs : ∀ g ∈ fs, g.IntegerPowers x) : (fs.foldl .mul f).IntegerPowers x := by
  induction fs generalizing f with
  | nil => exact hf
  | cons g gs ih =>
    obtain ⟨hg, hgs⟩ := List.forall_mem_cons.1 hfs
    exact ih ⟨hf, hg⟩ hgs

theorem integerPowers_product {fs : List Expr} (h : ∀ f ∈ fs, f.IntegerPowers x) :
    (product fs).IntegerPowers x := by
  have hsorted : ∀ f ∈ sort (fs.filter fun f => !f.isOne), f.IntegerPowers x := fun f hf =>
    h f (List.mem_of_mem_filter ((sort_perm _).mem_iff.1 hf))
  rw [product]
  split
  next => trivial
  next f gs hcons =>
    rw [hcons] at hsorted
    obtain ⟨hf, hgs⟩ := List.forall_mem_cons.1 hsorted
    exact integerPowers_foldl_mul hf hgs

theorem integerPowers_split (h : e.IntegerPowers x) : (split e).2.IntegerPowers x := by
  induction e with
  | const c => trivial
  | neg a ih => exact ih h
  | mul a b iha ihb =>
    exact integerPowers_product (List.forall_mem_append.2
      ⟨integerPowers_factors (iha h.1), integerPowers_factors (ihb h.2)⟩)
  | _ => exact h

theorem integerPowers_scaled (c : Rat) (h : e.IntegerPowers x) : (scaled c e).IntegerPowers x := by
  rw [scaled]
  split
  · trivial
  split
  · trivial
  split
  · exact h
  split
  · exact integerPowers_neg h
  · exact ⟨trivial, h⟩

/-! ## Tables of exponents -/

/-- The bases are of the form and the exponents are integers. -/
def Exponents.Integral (x : String) (table : Exponents) : Prop :=
  ∀ t ∈ table, t.1.IntegerPowers x ∧ ∃ k : ℤ, t.2 = k

theorem integral_addExponent {table : Exponents} {k : ℤ} (h : e.IntegerPowers x)
    (htable : Exponents.Integral x table) : Exponents.Integral x (addExponent e k table) := by
  induction table with
  | nil => exact List.forall_mem_singleton.2 ⟨h, k, rfl⟩
  | cons t table ih =>
    obtain ⟨⟨hb, d, hd⟩, htable⟩ := List.forall_mem_cons.1 htable
    rw [addExponent]
    split
    · refine List.forall_mem_cons.2 ⟨⟨hb, d + k, ?_⟩, htable⟩
      rw [hd, Int.cast_add]
    · exact List.forall_mem_cons.2 ⟨⟨hb, d, hd⟩, ih htable⟩

theorem integral_addFactors {table : Exponents} (sign : ℤ) (h : e.IntegerPowers x)
    (htable : Exponents.Integral x table) : Exponents.Integral x (addFactors sign e table) := by
  induction e generalizing sign table with
  | mul a b iha ihb => exact ihb sign h.2 (iha sign h.1 htable)
  | div a b iha ihb =>
    have hb := ihb (-sign) h.2 (iha sign h.1 htable)
    rwa [Int.cast_neg] at hb
  | pow a b _ _ =>
    obtain ⟨ha, k, rfl⟩ := h
    have hint : (k : Rat).isInt = true := by simp [Rat.isInt]
    rw [addFactors, if_pos hint, ← Int.cast_mul]
    exact integral_addExponent ha htable
  | _ =>
    simp only [addFactors]
    split
    · exact htable
    · exact integral_addExponent h htable

theorem integerPowers_power {k : ℤ} (h : e.IntegerPowers x) : (power e k).IntegerPowers x := by
  rw [power]
  split
  · exact h
  · exact ⟨h, k, rfl⟩

theorem integerPowers_collectPowers (h : e.IntegerPowers x) :
    (collectPowers e).IntegerPowers x := by
  have htable : Exponents.Integral x (addFactors 1 e []) := by
    have := integral_addFactors 1 h (List.forall_mem_nil _)
    rwa [Int.cast_one] at this
  have hnumer : ∀ f ∈ numerators (addFactors 1 e []), f.IntegerPowers x := by
    refine List.forall_mem_map.2 fun t ht => ?_
    obtain ⟨hb, k, hk⟩ := htable t (List.mem_of_mem_filter ht)
    rw [hk]
    exact integerPowers_power hb
  have hdenom : ∀ f ∈ denominators (addFactors 1 e []), f.IntegerPowers x := by
    refine List.forall_mem_map.2 fun t ht => ?_
    obtain ⟨hb, k, hk⟩ := htable t (List.mem_of_mem_filter ht)
    rw [hk, ← Int.cast_neg]
    exact integerPowers_power hb
  rw [collectPowers_eq]
  split
  · exact integerPowers_product hnumer
  · exact ⟨integerPowers_product hnumer, integerPowers_product hdenom⟩

/-! ## Sums -/

theorem integerPowers_terms (h : e.IntegerPowers x) : ∀ t ∈ terms e, t.IntegerPowers x := by
  induction e with
  | add a b iha ihb => exact List.forall_mem_append.2 ⟨iha h.1, ihb h.2⟩
  | sub a b iha ihb =>
    exact List.forall_mem_append.2
      ⟨iha h.1, List.forall_mem_map.2 fun t ht => integerPowers_neg (ihb h.2 t ht)⟩
  | neg a ih => exact List.forall_mem_map.2 fun t ht => integerPowers_neg (ih h t ht)
  | _ => exact List.forall_mem_singleton.2 h

/-- The factors of every row are of the form. -/
def Coefficients.Integral (x : String) (table : Coefficients) : Prop :=
  ∀ row ∈ table, ∀ f ∈ row.1, f.IntegerPowers x

theorem integral_addCoefficient {key : List Expr} {c : Rat} {table : Coefficients}
    (hkey : ∀ f ∈ key, f.IntegerPowers x) (htable : Coefficients.Integral x table) :
    Coefficients.Integral x (addCoefficient key c table) := by
  induction table with
  | nil => exact List.forall_mem_singleton.2 hkey
  | cons row table ih =>
    obtain ⟨hrow, htable⟩ := List.forall_mem_cons.1 htable
    rw [addCoefficient]
    split
    · exact List.forall_mem_cons.2 ⟨hrow, htable⟩
    · exact List.forall_mem_cons.2 ⟨hrow, ih htable⟩

theorem integral_addTerm {table : Coefficients} (h : e.IntegerPowers x)
    (htable : Coefficients.Integral x table) : Coefficients.Integral x (addTerm table e) := by
  simp only [addTerm]
  split
  · exact htable
  · refine integral_addCoefficient (fun f hf => ?_) htable
    have hfactors := integerPowers_factors (integerPowers_collectPowers (integerPowers_split h))
    exact hfactors f ((sort_perm _).mem_iff.1 hf)

theorem integral_foldl_addTerm {ts : List Expr} {table : Coefficients}
    (hts : ∀ t ∈ ts, t.IntegerPowers x) (htable : Coefficients.Integral x table) :
    Coefficients.Integral x (ts.foldl addTerm table) := by
  induction ts generalizing table with
  | nil => exact htable
  | cons t ts ih =>
    obtain ⟨ht, hts⟩ := List.forall_mem_cons.1 hts
    exact ih hts (integral_addTerm ht htable)

theorem integerPowers_foldl_add {t : Expr} {ts : List Expr} (ht : t.IntegerPowers x)
    (hts : ∀ d ∈ ts, d.IntegerPowers x) : (ts.foldl .add t).IntegerPowers x := by
  induction ts generalizing t with
  | nil => exact ht
  | cons d ds ih =>
    obtain ⟨hd, hds⟩ := List.forall_mem_cons.1 hts
    exact ih ⟨ht, hd⟩ hds

theorem integerPowers_sum {ts : List Expr} (h : ∀ t ∈ ts, t.IntegerPowers x) :
    (sum ts).IntegerPowers x := by
  cases ts with
  | nil => trivial
  | cons t ts =>
    obtain ⟨ht, hts⟩ := List.forall_mem_cons.1 h
    exact integerPowers_foldl_add ht hts

theorem integerPowers_ofCoefficients {table : Coefficients} (h : Coefficients.Integral x table) :
    (ofCoefficients table).IntegerPowers x := by
  let rows := (properRows table).mergeSort fun r t => (compareLists r.1 t.1).isLE
  have hperm : rows.Perm (properRows table) := List.mergeSort_perm _ _
  have hrows : ∀ t ∈ rows.map rowTerm, t.IntegerPowers x := by
    refine List.forall_mem_map.2 fun row hrow => integerPowers_scaled row.2 ?_
    exact integerPowers_product (h row (List.mem_of_mem_filter (hperm.mem_iff.1 hrow)))
  have heq : ofCoefficients table = sum (if constantTerm table = 0 then rows.map rowTerm
      else rows.map rowTerm ++ [.const (constantTerm table)]) := rfl
  rw [heq]
  refine integerPowers_sum ?_
  split
  · exact hrows
  · exact List.forall_mem_append.2 ⟨hrows, List.forall_mem_singleton.2 trivial⟩

theorem integerPowers_add (ha : a.IntegerPowers x) (hb : b.IntegerPowers x) :
    (add a b).IntegerPowers x :=
  integerPowers_ofCoefficients (integral_foldl_addTerm
    (List.forall_mem_append.2 ⟨integerPowers_terms ha, integerPowers_terms hb⟩)
    (List.forall_mem_nil _))

theorem integerPowers_sub (ha : a.IntegerPowers x) (hb : b.IntegerPowers x) :
    (sub a b).IntegerPowers x :=
  integerPowers_add ha (integerPowers_neg hb)

/-! ## Operations -/

theorem integerPowers_mulFactors (ha : a.IntegerPowers x) (hb : b.IntegerPowers x) :
    (mulFactors a b).IntegerPowers x := by
  have hab : (Expr.mul a b).IntegerPowers x := ⟨ha, hb⟩
  rw [mulFactors]
  split
  · trivial
  split
  · trivial
  split
  · exact hb
  split
  · exact ha
  · exact integerPowers_scaled _ (integerPowers_collectPowers (integerPowers_split hab))

theorem integerPowers_distributeRight (ha : a.IntegerPowers x) (hb : b.IntegerPowers x) :
    (distributeRight a b).IntegerPowers x := by
  induction b with
  | add c d ihc ihd => exact integerPowers_add (ihc hb.1) (ihd hb.2)
  | sub c d ihc ihd => exact integerPowers_sub (ihc hb.1) (ihd hb.2)
  | _ => exact integerPowers_mulFactors ha hb

theorem integerPowers_distribute (ha : a.IntegerPowers x) (hb : b.IntegerPowers x) :
    (distribute b a).IntegerPowers x := by
  induction a with
  | add c d ihc ihd => exact integerPowers_add (ihc ha.1) (ihd ha.2)
  | sub c d ihc ihd => exact integerPowers_sub (ihc ha.1) (ihd ha.2)
  | _ => exact integerPowers_distributeRight ha hb

theorem integerPowers_mul (ha : a.IntegerPowers x) (hb : b.IntegerPowers x) :
    (mul a b).IntegerPowers x := by
  rw [mul]
  split
  · exact ⟨ha, hb⟩
  · exact integerPowers_distribute ha hb

theorem integerPowers_div (ha : a.IntegerPowers x) (hb : b.IntegerPowers x) :
    (div a b).IntegerPowers x := by
  have hnumer := integerPowers_split ha
  have hdenom := integerPowers_split hb
  have hcore : (if (split b).2.isOne then (split a).2
      else collectPowers (.div (split a).2 (split b).2)).IntegerPowers x := by
    split
    · exact hnumer
    · exact integerPowers_collectPowers ⟨hnumer, hdenom⟩
  rw [div]
  split
  · split
    · exact ⟨ha, hb⟩
    · trivial
  split
  · trivial
  split
  · exact ha
  dsimp only
  split
  · exact ⟨ha, hb⟩
  split
  · trivial
  split
  · exact hcore
  · exact integerPowers_mul trivial hcore

theorem integerPowers_powConstant {q : Rat} (ha : a.IntegerPowers x) (hq : ∃ k : ℤ, q = k) :
    (powConstant a q).IntegerPowers x := by
  fun_induction powConstant a q with
  | case1 a => trivial
  | case2 a => exact ha
  | case3 q _ _ b =>
    obtain ⟨k, rfl⟩ := hq
    rw [powConstants]
    split
    · trivial
    · exact ⟨trivial, k, rfl⟩
  | case4 q _ _ base m _ ih =>
    obtain ⟨⟨hbase, n, hn⟩, k, rfl⟩ := And.intro ha hq
    obtain rfl := Expr.const.inj hn
    exact ih hbase ⟨n * k, (Int.cast_mul n k).symm⟩
  | case5 q _ _ base m hint =>
    obtain ⟨k, rfl⟩ := hq
    exact absurd (by simp [Rat.isInt]) hint
  | case6 a q _ _ _ _ =>
    obtain ⟨k, rfl⟩ := hq
    exact ⟨ha, k, rfl⟩

/-- A pass turns exponents that it can compute into constants. -/
theorem integerPowers_step (h : e.ComputedPowers x) : (step e).IntegerPowers x := by
  induction e with
  | var name => exact h
  | const c => trivial
  | add a b iha ihb => exact integerPowers_add (iha h.1) (ihb h.2)
  | sub a b iha ihb => exact integerPowers_sub (iha h.1) (ihb h.2)
  | mul a b iha ihb => exact integerPowers_mul (iha h.1) (ihb h.2)
  | div a b iha ihb => exact integerPowers_div (iha h.1) (ihb h.2)
  | pow a b iha _ =>
    obtain ⟨ha, k, hk⟩ := h
    rw [step, step_of_rational? hk]
    exact integerPowers_powConstant (iha ha) ⟨k, rfl⟩
  | neg a ih => exact integerPowers_neg (ih h)
  | call f a => exact h.elim

theorem integerPowers_passes (h : e.IntegerPowers x) (n : Nat) {cache : Cache} (hc : cache.Sound) :
    (passes n e cache).IntegerPowers x := by
  induction n generalizing e cache with
  | zero => exact h
  | succ n ih =>
    obtain ⟨hstep, hsound⟩ := yields_cached e cache hc
    simp only [passes]
    split
    · exact h
    · rw [hstep]
      exact ih (integerPowers_step h.computed) hsound

/-- The first of the passes turns the exponents into constants. -/
theorem integerPowers_passes_succ (h : e.ComputedPowers x) (n : Nat) {cache : Cache}
    (hc : cache.Sound) : (passes (n + 1) e cache).IntegerPowers x := by
  obtain ⟨hstep, hsound⟩ := yields_cached e cache hc
  have hpass := integerPowers_step h
  simp only [passes]
  split
  case isTrue heq => rwa [← heq, hstep]
  case isFalse =>
    rw [hstep]
    exact integerPowers_passes hpass n hsound

end Simplify

open MarketAlgebra.Expr

theorem integerPowers_simplifyOnce {x : String} {e : Expr} (h : e.ComputedPowers x) :
    (simplifyOnce e).IntegerPowers x := by
  rw [simplifyOnce_eq_step]
  exact Simplify.integerPowers_step h

theorem integerPowers_simplify_of_computed {x : String} {e : Expr} (h : e.ComputedPowers x) :
    (simplify e).IntegerPowers x :=
  Simplify.integerPowers_passes_succ h 63 Simplify.Cache.sound_empty

theorem integerPowers_simplify {x : String} {e : Expr} (h : e.IntegerPowers x) :
    (simplify e).IntegerPowers x :=
  integerPowers_simplify_of_computed h.computed

end MarketAlgebra
