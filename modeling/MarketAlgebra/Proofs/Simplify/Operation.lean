import MarketAlgebra.Proofs.Simplify.Sum
import MarketAlgebra.Simplify.Operation

/-!
# Operations on simplified operands keep their value

Every operation of `MarketAlgebra.Simplify` keeps the value of the plain constructor
(`keeps_mul`, `keeps_div`, `keeps_pow`, `keeps_call`; sums are in
`MarketAlgebra.Proofs.Simplify.Sum`).  None of them is an equality of partial functions: cancelling
a factor or a root makes the result defined at more places than the operands.

A power of a power is merged by `pow_pow_of_defined`.  The inner power decides which bases occur: a
negative base comes with an integer inner exponent, so no root of a negative number is ever taken.
-/

namespace MarketAlgebra.Simplify

open MarketAlgebra.Expr

variable {s : String → ℝ}

/-! ## Products -/

/-- Multiplying expressions that are not sums keeps the value. -/
theorem keeps_mulFactors (s : String → ℝ) (x y : Expr) : Keeps s (.mul x y) (mulFactors x y) := by
  intro hxy
  rw [mulFactors]
  split
  next c d hc hd =>
    rw [eq_const_of_constant? hc, eq_const_of_constant? hd]
    exact ⟨trivial, by simp [real]⟩
  next =>
    split
    next hz =>
      refine ⟨defined_zero, ?_⟩
      rcases Bool.or_eq_true_iff.1 hz with hx | hy
      · rw [real, real_of_isZero hx, real_zero, zero_mul]
      · rw [real, real_of_isZero hy, real_zero, mul_zero]
    split
    next hx => exact ⟨hxy.2, by rw [real, real_of_isOne hx, one_mul]⟩
    split
    next hy => exact ⟨hxy.1, by rw [real, real_of_isOne hy, mul_one]⟩
    next =>
      obtain ⟨db, hb⟩ := split_spec hxy
      obtain ⟨dc, hc⟩ := keeps_collectPowers s _ db
      obtain ⟨dr, hr⟩ := scaled_spec (split (.mul x y)).1 dc
      exact ⟨dr, by rw [hr, hc, ← hb]⟩

/-- Multiplying every term of the right operand keeps the value. -/
theorem keeps_distributeRight (s : String → ℝ) (x y : Expr) :
    Keeps s (.mul x y) (distributeRight x y) := by
  induction y with
  | add a b iha ihb =>
    have hsum : Keeps s (.mul x (.add a b)) (.add (.mul x a) (.mul x b)) :=
      .of_real_eq (by rintro ⟨hx, ha, hb⟩; exact ⟨⟨hx, ha⟩, hx, hb⟩)
        (by simp only [real]; ring)
    exact (hsum.trans (.add iha ihb)).trans (keeps_add s _ _)
  | sub a b iha ihb =>
    have hsum : Keeps s (.mul x (.sub a b)) (.sub (.mul x a) (.mul x b)) :=
      .of_real_eq (by rintro ⟨hx, ha, hb⟩; exact ⟨⟨hx, ha⟩, hx, hb⟩)
        (by simp only [real]; ring)
    exact (hsum.trans (.sub iha ihb)).trans (keeps_sub s _ _)
  | _ => exact keeps_mulFactors s x _

/-- Multiplying every term of both operands keeps the value. -/
theorem keeps_distribute (s : String → ℝ) (x y : Expr) : Keeps s (.mul x y) (distribute y x) := by
  induction x with
  | add a b iha ihb =>
    have hsum : Keeps s (.mul (.add a b) y) (.add (.mul a y) (.mul b y)) :=
      .of_real_eq (by rintro ⟨⟨ha, hb⟩, hy⟩; exact ⟨⟨ha, hy⟩, hb, hy⟩)
        (by simp only [real]; ring)
    exact (hsum.trans (.add iha ihb)).trans (keeps_add s _ _)
  | sub a b iha ihb =>
    have hsum : Keeps s (.mul (.sub a b) y) (.sub (.mul a y) (.mul b y)) :=
      .of_real_eq (by rintro ⟨⟨ha, hb⟩, hy⟩; exact ⟨⟨ha, hy⟩, hb, hy⟩)
        (by simp only [real]; ring)
    exact (hsum.trans (.sub iha ihb)).trans (keeps_sub s _ _)
  | _ => exact keeps_distributeRight s _ y

/-- Multiplying keeps the value. -/
theorem keeps_mul (s : String → ℝ) (x y : Expr) : Keeps s (.mul x y) (mul x y) := by
  rw [mul]
  split
  next => exact .refl s _
  next => exact keeps_distribute s x y

/-! ## Quotients -/

/-- Cancelling common factors below a coefficient keeps the value. -/
theorem quotient_spec {x y : Expr} (hx : x.Defined s) (hy : y.Defined s) (hne : y.real s ≠ 0) :
    (if y.isOne then x else collectPowers (.div x y)).HasValue s (x.real s / y.real s) := by
  split
  next hone => exact ⟨hx, by rw [real_of_isOne hone, div_one]⟩
  next => exact keeps_collectPowers s (.div x y) ⟨hx, hy, hne⟩

/-- Dividing keeps the value. -/
theorem keeps_div (s : String → ℝ) (x y : Expr) : Keeps s (.div x y) (div x y) := by
  intro hxy
  obtain ⟨dx, dy, hne⟩ := hxy
  rw [div]
  split
  next n d hn hd =>
    obtain rfl := eq_const_of_constant? hn
    obtain rfl := eq_const_of_constant? hd
    split
    next hz => exact ⟨⟨dx, dy, hne⟩, rfl⟩
    next => exact ⟨trivial, by simp [real]⟩
  next =>
    split
    next hx => exact ⟨defined_zero, by rw [real, real_of_isZero hx, real_zero, zero_div]⟩
    split
    next hy => exact ⟨dx, by rw [real, real_of_isOne hy, div_one]⟩
    next =>
      obtain ⟨dn, hn⟩ := split_spec dx
      obtain ⟨dd, hd⟩ := split_spec dy
      generalize split x = sx at dn hn
      generalize split y = sy at dd hd
      obtain ⟨c, numer⟩ := sx
      obtain ⟨d, denom⟩ := sy
      simp only at dn hn dd hd ⊢
      rw [hd] at hne
      obtain ⟨hd0, hdenom⟩ := mul_ne_zero_iff.1 hne
      have hval : (Expr.div x y).real s = (c / d : Rat) * (numer.real s / denom.real s) := by
        rw [real, hn, hd, Rat.cast_div]
        exact mul_div_mul_comm _ _ _ _
      rw [hval]
      split
      next => exact ⟨⟨dx, dy, hd ▸ hne⟩, hval⟩
      split
      next heq => exact ⟨trivial, by rw [heq, div_self hdenom, mul_one, real]⟩
      next =>
        have hcore := quotient_spec dn dd hdenom
        split
        next hone =>
          rw [hone, Rat.cast_one, one_mul]
          exact hcore
        next =>
          rw [← hcore.2]
          exact keeps_mul s (.const (c / d)) _ ⟨trivial, hcore.1⟩

/-! ## Powers -/

/-- A power of constants keeps the value. -/
theorem keeps_powConstants (s : String → ℝ) (b e : Rat) :
    Keeps s (.pow (.const b) (.const e)) (powConstants b e) := by
  rw [powConstants]
  split
  next h =>
    simp only [Bool.and_eq_true] at h
    obtain ⟨k, rfl⟩ : ∃ k : ℤ, e = k := ⟨e.num, eq_intCast_of_isInt h.1.1⟩
    intro _
    refine ⟨trivial, ?_⟩
    rw [real_pow_const_int, Rat.num_intCast]
    split
    next hk =>
      have hk' : 0 ≤ k := by exact_mod_cast hk
      obtain ⟨n, rfl⟩ := Int.eq_ofNat_of_zero_le hk'
      simp [real]
    next hk =>
      have hk' : k < 0 := by
        rw [← not_le]
        exact_mod_cast hk
      obtain ⟨n, hn⟩ := Int.exists_eq_neg_ofNat hk'.le
      subst hn
      simp [real]
  next => exact .refl s _

/-- A power of a power with an integer outer exponent, wherever both are defined. -/
theorem pow_pow_of_defined {x m : ℝ} {n : ℤ} (hm : PowDefined x m)
    (hn : n < 0 → x ^ m ≠ 0) : PowDefined x (m * n) ∧ x ^ (m * n) = (x ^ m) ^ n := by
  rcases hm with hx | ⟨rfl, hm⟩ | ⟨hx, k, rfl⟩
  · exact ⟨.of_pos hx _, by rw [Real.rpow_mul hx.le, Real.rpow_intCast]⟩
  · rcases hm.eq_or_lt with rfl | hm
    · simp [PowDefined]
    · have hz : (0 : ℝ) ^ m = 0 := Real.zero_rpow hm.ne'
      have hn0 : 0 ≤ n := not_lt.1 fun h => hn h hz
      rw [hz]
      rcases hn0.eq_or_lt with rfl | hpos
      · simp [PowDefined]
      · have hmn : 0 < m * n := mul_pos hm (Int.cast_pos.2 hpos)
        exact ⟨.inr (.inl ⟨rfl, hmn.le⟩), by rw [Real.zero_rpow hmn.ne', zero_zpow n hpos.ne']⟩
  · have hmul : (k : ℝ) * n = ((k * n : ℤ) : ℝ) := by push_cast; rfl
    refine ⟨.inr (.inr ⟨hx, k * n, hmul⟩), ?_⟩
    rw [hmul, Real.rpow_intCast, Real.rpow_intCast, zpow_mul]

/-- Merging the exponents of a power of a power keeps the value. -/
theorem keeps_pow_pow (s : String → ℝ) (base : Expr) (m : Rat) (n : ℤ) :
    Keeps s (.pow (.pow base (.const m)) (.const (n : Rat)))
      (.pow base (.const (m * (n : Rat)))) := by
  intro h
  obtain ⟨⟨db, -, hm⟩, hn⟩ := defined_pow_const_int_iff.1 h
  rw [real_pow_const_int]
  simp only [HasValue, Defined, real, Rat.cast_mul, Rat.cast_intCast, true_and] at hm hn ⊢
  obtain ⟨hd, hr⟩ := pow_pow_of_defined hm hn
  exact ⟨⟨db, hd⟩, hr⟩

/-- A power with a constant exponent keeps the value. -/
theorem keeps_powConstant (s : String → ℝ) (x : Expr) (e : Rat) :
    Keeps s (.pow x (.const e)) (powConstant x e) := by
  fun_induction powConstant x e with
  | case1 x => exact fun _ => ⟨defined_one, by simp [real]⟩
  | case2 x => exact fun h => ⟨h.1, by simp [real]⟩
  | case3 e _ _ b => exact keeps_powConstants s b e
  | case4 e _ _ base m hint ih =>
    obtain ⟨n, rfl⟩ : ∃ n : ℤ, e = n := ⟨e.num, eq_intCast_of_isInt hint⟩
    exact (keeps_pow_pow s base m n).trans ih
  | case5 e _ _ base m _ => exact .refl s _
  | case6 x e _ _ _ _ => exact .refl s _

/-- Raising to a power keeps the value. -/
theorem keeps_pow (s : String → ℝ) (x y : Expr) : Keeps s (.pow x y) (pow x y) := by
  cases y with
  | const e => exact keeps_powConstant s x e
  | _ => exact .refl s _

/-! ## Function values -/

/-- A function value that is known is a constant. -/
theorem keeps_call_const {f : Fn} {x : Expr} {c : Rat} (h : f.real (x.real s) = c) :
    Keeps s (.call f x) (.const c) :=
  fun _ => ⟨trivial, h.symm⟩

/-- The sign of the argument of an odd function can be moved out. -/
theorem keeps_call_neg_of_odd (f : Fn) (hodd : ∀ x, f.real (-x) = -f.real x)
    (hd : ∀ x, f.DefinedAt (-x) → f.DefinedAt x) (s : String → ℝ) (a : Expr) :
    Keeps s (.call f (.neg a)) (neg (.call f a)) := by
  have hneg : Keeps s (.call f (.neg a)) (.neg (.call f a)) :=
    .of_real_eq (fun h => ⟨h.1, hd _ h.2⟩) (hodd _).symm
  exact hneg.trans (keeps_neg s _)

/-- A function value keeps the value: the sine and the tangent are odd, the cosine is even, and the
exponential and the logarithm undo each other. -/
theorem keeps_call (s : String → ℝ) (f : Fn) (x : Expr) : Keeps s (.call f x) (call f x) := by
  fun_cases call f x with
  | case1 x hz | case7 x hz => exact keeps_call_const (by simp [Fn.real, real_of_isZero hz])
  | case4 x hz | case10 x hz => exact keeps_call_const (by simp [Fn.real, real_of_isZero hz])
  | case13 x hone => exact keeps_call_const (by simp [Fn.real, real_of_isOne hone])
  | case2 a => exact keeps_call_neg_of_odd .sin Real.sin_neg (fun _ h => h) s a
  | case8 a =>
    have hd : ∀ x, Fn.tan.DefinedAt (-x) → Fn.tan.DefinedAt x := fun x h => by
      rwa [Fn.DefinedAt, Real.cos_neg] at h
    exact keeps_call_neg_of_odd .tan Real.tan_neg hd s a
  | case5 a => exact .of_real_eq id (Real.cos_neg _).symm
  | case11 a => exact fun h => ⟨h.1.1, (Real.exp_log h.1.2).symm⟩
  | case14 a => exact fun h => ⟨h.1.1, (Real.log_exp _).symm⟩
  | case3 | case6 | case9 | case12 | case15 => exact .refl s _

end MarketAlgebra.Simplify
