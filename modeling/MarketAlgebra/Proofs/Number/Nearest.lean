import MarketAlgebra.Proofs.Number.Bits

/-!
# Rounding rationals to floats

`Binary64.ofRat` keeps the order of rationals up to ties (`magnitude_mono`), since it rounds a
mantissa and writes a larger exponent in front of a smaller one.  What is decided for one rational
therefore holds for all beyond it: rationals below `2 ^ 1023` have finite approximations, and those
of `2 ^ -1022` or more have approximations other than zero.
-/

namespace MarketAlgebra

/-! ## Rounding a quotient -/

/-- Rounding to even moves a quotient by a half at most. -/
theorem abs_roundDiv_sub_le (n : Nat) {d : Nat} (hd : 0 < d) :
    |(roundDiv .toEven n d : ℚ) - n / d| ≤ 1 / 2 := by
  have hdiv : (n : ℚ) / d = (n / d : Nat) + (n % d : Nat) / d := by
    have h : (n : ℚ) = d * (n / d : Nat) + (n % d : Nat) := by
      exact_mod_cast (Nat.div_add_mod n d).symm
    have hd' : (d : ℚ) ≠ 0 := by positivity
    rw [eq_comm, ← sub_eq_zero]
    field_simp
    linarith
  have hd' : (0 : ℚ) < d := by positivity
  have hlt : n % d < d := Nat.mod_lt n hd
  rw [hdiv, abs_le]
  unfold roundDiv
  dsimp only
  generalize n / d = q at *
  generalize n % d = r at *
  have hnonneg : (0 : ℚ) ≤ r / d := by positivity
  split_ifs with h1 h2
  · have : (r : ℚ) / d ≤ 1 / 2 := by
      rw [div_le_div_iff₀ hd' two_pos]
      exact_mod_cast (by omega : r * 2 ≤ 1 * d)
    constructor <;> linarith
  · have : (1 : ℚ) / 2 ≤ r / d := by
      rw [div_le_div_iff₀ two_pos hd']
      exact_mod_cast (by omega : 1 * d ≤ r * 2)
    have h' : (r : ℚ) / d ≤ 1 := by
      rw [div_le_one hd']
      exact_mod_cast hlt.le
    push_cast
    constructor <;> linarith
  · have : (r : ℚ) / d = 1 / 2 := by
      rw [div_eq_div_iff hd'.ne' two_ne_zero]
      exact_mod_cast (by omega : r * 2 = 1 * d)
    have h0 : q % 2 = 0 ∨ q % 2 = 1 := by omega
    rcases h0 with h0 | h0 <;> rw [h0, this] <;> push_cast <;> constructor <;> linarith

/-- Rounding keeps the order of quotients. -/
theorem roundDiv_le_roundDiv {n d n' d' : Nat} (hd : 0 < d) (hd' : 0 < d') (h : n * d' ≤ n' * d) :
    roundDiv .toEven n d ≤ roundDiv .toEven n' d' := by
  have hq : n / d ≤ n' / d' := by
    rw [Nat.le_div_iff_mul_le hd']
    have := Nat.div_mul_le_self n d
    have h2 : n / d * d' * d ≤ n' * d := by
      calc n / d * d' * d = n / d * d * d' := by ring
        _ ≤ n * d' := Nat.mul_le_mul_right d' this
        _ ≤ n' * d := h
    exact Nat.le_of_mul_le_mul_right h2 hd
  rcases hq.lt_or_eq with hlt | heq
  · rcases roundDiv_eq_or .toEven n d with h1 | h1 <;>
      rcases roundDiv_eq_or .toEven n' d' with h2 | h2 <;> omega
  · have hr : n % d * d' ≤ n' % d' * d := by
      have h1 := Nat.div_add_mod n d
      have h2 := Nat.div_add_mod n' d'
      generalize n / d = q at *
      generalize n' / d' = q' at *
      subst heq
      generalize n % d = r at *
      generalize n' % d' = r' at *
      subst h1 h2
      linarith
    have hup : d ≤ n % d * 2 → d' ≤ n' % d' * 2 := fun hle => by
      refine Nat.le_of_mul_le_mul_left ?_ hd
      calc d * d' ≤ n % d * 2 * d' := Nat.mul_le_mul_right d' hle
        _ = n % d * d' * 2 := Nat.mul_right_comm _ _ _
        _ ≤ n' % d' * d * 2 := Nat.mul_le_mul_right 2 hr
        _ = d * (n' % d' * 2) := by ring
    have hup' : d < n % d * 2 → d' < n' % d' * 2 := fun hlt => by
      refine Nat.lt_of_mul_lt_mul_left (a := d) ?_
      calc d * d' < n % d * 2 * d' := Nat.mul_lt_mul_of_pos_right hlt hd'
        _ = n % d * d' * 2 := Nat.mul_right_comm _ _ _
        _ ≤ n' % d' * d * 2 := Nat.mul_le_mul_right 2 hr
        _ = d * (n' % d' * 2) := by ring
    unfold roundDiv
    simp only [heq]
    split_ifs <;> omega

/-- Equal quotients are rounded to the same integer. -/
theorem roundDiv_congr {n d n' d' : ℕ} (hd : 0 < d) (hd' : 0 < d') (h : (n / d : ℚ) = n' / d') :
    roundDiv .toEven n d = roundDiv .toEven n' d' := by
  rw [div_eq_div_iff (Nat.cast_pos.2 hd).ne' (Nat.cast_pos.2 hd').ne'] at h
  have hcross : n * d' = n' * d := by exact_mod_cast h
  exact le_antisymm (roundDiv_le_roundDiv hd hd' hcross.le) (roundDiv_le_roundDiv hd' hd hcross.ge)

namespace Binary64

/-! ## From rationals -/

/-- A quotient scaled by a power of two, as shifts compute it. -/
theorem shift_div_shift (n d : ℕ) (q : ℤ) :
    ((n <<< (-q).toNat : ℕ) : ℚ) / ((d <<< q.toNat : ℕ) : ℚ) = n / d / 2 ^ q := by
  rw [Nat.shiftLeft_eq, Nat.shiftLeft_eq]
  push_cast
  rcases Int.eq_nat_or_neg q with ⟨k, rfl | rfl⟩
  · rw [Int.toNat_neg_natCast, Int.toNat_natCast, pow_zero, mul_one, zpow_natCast, div_div]
  · rw [neg_neg, Int.toNat_neg_natCast, Int.toNat_natCast, pow_zero, mul_one, zpow_neg,
      zpow_natCast, div_inv_eq_mul, mul_div_right_comm]

/-- The comparison by which the exponent is found. -/
theorem shift_le_shift_iff {n d : ℕ} (hd : 0 < d) (q : ℤ) :
    d <<< q.toNat ≤ n <<< (-q).toNat ↔ (2 : ℚ) ^ q ≤ n / d := by
  have hpos : (0 : ℚ) < ((d <<< q.toNat : ℕ) : ℚ) := by
    rw [Nat.shiftLeft_eq]
    positivity
  have htwo : (0 : ℚ) < 2 ^ q := by positivity
  rw [← one_le_div htwo, ← shift_div_shift, one_le_div hpos, Nat.cast_le]

/-- A positive quotient lies between two consecutive powers of two. -/
theorem binaryExponent_spec {n d : ℕ} (hn : 0 < n) (hd : 0 < d) :
    (2 : ℚ) ^ binaryExponent n d ≤ n / d ∧ (n / d : ℚ) < 2 ^ (binaryExponent n d + 1) := by
  have hd' : (0 : ℚ) < d := Nat.cast_pos.2 hd
  have htwo : (2 : ℚ) ≠ 0 := two_ne_zero
  have hlower : (2 : ℚ) ^ ((n.log2 : ℤ) - d.log2 - 1) ≤ n / d := by
    have hn1 : ((2 : ℚ) ^ n.log2) ≤ n := by exact_mod_cast Nat.log2_self_le hn.ne'
    have hd2 : (d : ℚ) ≤ 2 ^ (d.log2 + 1) := by exact_mod_cast Nat.lt_log2_self.le
    rw [sub_sub, zpow_sub₀ htwo, zpow_natCast, ← Nat.cast_succ, zpow_natCast]
    exact div_le_div₀ (Nat.cast_nonneg n) hn1 hd' hd2
  have hupper : (n / d : ℚ) < 2 ^ ((n.log2 : ℤ) - d.log2 + 1) := by
    have hn2 : (n : ℚ) < 2 ^ (n.log2 + 1) := by exact_mod_cast Nat.lt_log2_self
    have hd1 : ((2 : ℚ) ^ d.log2) ≤ d := by exact_mod_cast Nat.log2_self_le hd.ne'
    rw [sub_add_eq_add_sub, zpow_sub₀ htwo, zpow_natCast, ← Nat.cast_succ, zpow_natCast]
    exact div_lt_div₀ hn2 hd1 (by positivity) (by positivity)
  rw [binaryExponent]
  split
  case isTrue h => exact ⟨(shift_le_shift_iff hd _).1 h, hupper⟩
  case isFalse h =>
    rw [shift_le_shift_iff hd, not_le] at h
    exact ⟨hlower, by rwa [sub_add_cancel]⟩

/-- No other power of two does. -/
theorem binaryExponent_eq {n d : ℕ} {e : ℤ} (hn : 0 < n) (hd : 0 < d)
    (hlower : (2 : ℚ) ^ e ≤ n / d) (hupper : (n / d : ℚ) < 2 ^ (e + 1)) :
    binaryExponent n d = e := by
  obtain ⟨h1, h2⟩ := binaryExponent_spec hn hd
  have hlt := (zpow_lt_zpow_iff_right₀ (one_lt_two (α := ℚ))).1 (h1.trans_lt hupper)
  have hlt' := (zpow_lt_zpow_iff_right₀ (one_lt_two (α := ℚ))).1 (hlower.trans_lt h2)
  omega

/-- The exponent grows with the quotient. -/
theorem binaryExponent_mono {n d n' d' : ℕ} (hn : 0 < n) (hd : 0 < d) (hd' : 0 < d')
    (h : (n / d : ℚ) ≤ n' / d') : binaryExponent n d ≤ binaryExponent n' d' := by
  have hpos : (0 : ℚ) < n / d := by positivity
  have hn' : 0 < n' := by
    rw [Nat.pos_iff_ne_zero]
    rintro rfl
    rw [Nat.cast_zero, zero_div] at h
    exact absurd hpos (not_lt.2 h)
  have hlt : (2 : ℚ) ^ binaryExponent n d < 2 ^ (binaryExponent n' d' + 1) :=
    ((binaryExponent_spec hn hd).1.trans h).trans_lt (binaryExponent_spec hn' hd').2
  have := (zpow_lt_zpow_iff_right₀ one_lt_two).1 hlt
  omega

/-! ### The bits of a magnitude -/

/-- The exponent of the last mantissa bit. -/
def lastExponent (n d : ℕ) : ℤ := max (binaryExponent n d - storedBits) leastExponent

/-- The rounded mantissa with its leading bit. -/
def mantissa (n d : ℕ) : ℕ :=
  roundDiv .toEven (n <<< (-lastExponent n d).toNat) (d <<< (lastExponent n d).toNat)

variable {n d n' d' : ℕ}

theorem magnitudeBits_eq (hn : 0 < n) : magnitudeBits n d =
    min ((lastExponent n d - leastExponent).toNat * 2 ^ 52 + mantissa n d) infinityBits := by
  rw [magnitudeBits, if_neg hn.ne', ← Nat.shiftLeft_eq]
  rfl

theorem magnitudeBits_le (n d : ℕ) : magnitudeBits n d ≤ infinityBits := by
  rw [magnitudeBits]
  split
  · exact Nat.zero_le _
  · exact Nat.min_le_right _ _

theorem shift_pos (hd : 0 < d) (q : ℤ) : 0 < d <<< q.toNat := by
  rw [Nat.shiftLeft_eq]
  positivity

/-- Bounds of a rounded quotient that are integers. -/
theorem roundDiv_le (hd : 0 < d) {k : ℕ} (h : (n / d : ℚ) ≤ k) : roundDiv .toEven n d ≤ k := by
  have hk := roundDiv_mul_right .toEven k one_pos
  rw [← hk]
  refine roundDiv_le_roundDiv hd one_pos ?_
  rw [div_le_iff₀ (Nat.cast_pos.2 hd)] at h
  rw [mul_one, mul_one]
  exact_mod_cast h

theorem le_roundDiv (hd : 0 < d) {k : ℕ} (h : (k : ℚ) ≤ n / d) : k ≤ roundDiv .toEven n d := by
  have hk := roundDiv_mul_right .toEven k one_pos
  rw [← hk]
  refine roundDiv_le_roundDiv one_pos hd ?_
  rw [le_div_iff₀ (Nat.cast_pos.2 hd)] at h
  rw [mul_one, mul_one]
  exact_mod_cast h

/-- A mantissa has 53 bits at most, or it is the next power of two. -/
theorem mantissa_le (hn : 0 < n) (hd : 0 < d) : mantissa n d ≤ 2 ^ 53 := by
  refine roundDiv_le (shift_pos hd _) ?_
  rw [shift_div_shift, div_le_iff₀ (by positivity)]
  have hq : binaryExponent n d + 1 ≤ 53 + lastExponent n d := by
    have := le_max_left (binaryExponent n d - storedBits) leastExponent
    rw [← lastExponent, storedBits] at this
    omega
  calc (n / d : ℚ) ≤ 2 ^ (binaryExponent n d + 1) := (binaryExponent_spec hn hd).2.le
    _ ≤ 2 ^ (53 + lastExponent n d) := zpow_le_zpow_right₀ one_le_two hq
    _ = (2 ^ 53 : ℕ) * 2 ^ lastExponent n d := by
      rw [zpow_add₀ two_ne_zero]
      norm_num

/-- A mantissa has 53 bits, unless its exponent is the least one. -/
theorem le_mantissa (hn : 0 < n) (hd : 0 < d) (h : leastExponent < lastExponent n d) :
    2 ^ 52 ≤ mantissa n d := by
  refine le_roundDiv (shift_pos hd _) ?_
  rw [shift_div_shift, le_div_iff₀ (by positivity)]
  have hq : lastExponent n d = binaryExponent n d - storedBits := by
    rw [lastExponent] at h ⊢
    exact max_eq_left (by omega)
  calc ((2 ^ 52 : ℕ) : ℚ) * 2 ^ lastExponent n d = 2 ^ (52 + lastExponent n d) := by
        rw [zpow_add₀ two_ne_zero]
        norm_num
    _ = 2 ^ binaryExponent n d := by
        rw [hq, storedBits]
        congr 1
        omega
    _ ≤ n / d := (binaryExponent_spec hn hd).1

/-- The bits of a magnitude grow with it. -/
theorem magnitudeBits_mono (hd : 0 < d) (hd' : 0 < d') (h : (n / d : ℚ) ≤ n' / d') :
    magnitudeBits n d ≤ magnitudeBits n' d' := by
  rcases Nat.eq_zero_or_pos n with rfl | hn
  · rw [magnitudeBits, if_pos rfl]
    exact Nat.zero_le _
  have hpos : (0 : ℚ) < n / d := by positivity
  have hn' : 0 < n' := by
    rw [Nat.pos_iff_ne_zero]
    rintro rfl
    rw [Nat.cast_zero, zero_div] at h
    exact absurd hpos (not_lt.2 h)
  have hq : lastExponent n d ≤ lastExponent n' d' :=
    max_le_max (sub_le_sub_right (binaryExponent_mono hn hd hd' h) _) le_rfl
  have hleast : leastExponent ≤ lastExponent n d := le_max_right _ _
  rw [magnitudeBits_eq hn, magnitudeBits_eq hn']
  refine min_le_min ?_ le_rfl
  rcases hq.lt_or_eq with hlt | heq
  · have hm := mantissa_le hn hd
    have hm' := le_mantissa hn' hd' (hleast.trans_lt hlt)
    omega
  · have hm : mantissa n d ≤ mantissa n' d' := by
      rw [mantissa, mantissa, heq]
      refine roundDiv_le_roundDiv (shift_pos hd _) (shift_pos hd' _) ?_
      have hscaled : ((n <<< (-lastExponent n' d').toNat : ℕ) : ℚ) /
          ((d <<< (lastExponent n' d').toNat : ℕ) : ℚ) ≤
          ((n' <<< (-lastExponent n' d').toNat : ℕ) : ℚ) /
            ((d' <<< (lastExponent n' d').toNat : ℕ) : ℚ) := by
        rw [shift_div_shift, shift_div_shift]
        exact div_le_div_of_nonneg_right h (by positivity)
      rw [div_le_div_iff₀ (Nat.cast_pos.2 (shift_pos hd _)) (Nat.cast_pos.2 (shift_pos hd' _))]
        at hscaled
      exact_mod_cast hscaled
    rw [heq]
    omega

/-! ### Rationals -/

/-- The bits of the magnitude of a rational. -/
def magnitude (x : ℚ) : ℕ := magnitudeBits x.num.natAbs x.den

theorem magnitude_le_infinityBits (x : ℚ) : magnitude x ≤ infinityBits := magnitudeBits_le _ _

theorem ofRat_eq (x : ℚ) : ofRat x = ofMagnitude (decide (x < 0)) (magnitude x) := by
  rw [ofRat, ofMagnitude, signed, magnitude]
  by_cases h : x < 0
  · simp [h, Rat.num_neg.2 h]
  · simp [h, mt Rat.num_neg.1 h]

theorem natAbs_num_div_den (x : ℚ) : (x.num.natAbs : ℚ) / x.den = |x| := by
  have hden : (0 : ℚ) < x.den := Nat.cast_pos.2 x.den_pos
  rw [Nat.cast_natAbs, Int.cast_abs, ← abs_of_pos hden, ← abs_div, Rat.num_div_den]

variable {x y : ℚ}

/-- The bits of a magnitude grow with it. -/
theorem magnitude_mono (h : |x| ≤ |y|) : magnitude x ≤ magnitude y := by
  refine magnitudeBits_mono x.den_pos y.den_pos ?_
  rwa [natAbs_num_div_den, natAbs_num_div_den]

/-- Rounding keeps the order. -/
theorem rank_ofRat_mono (h : x ≤ y) : rank (ofRat x) ≤ rank (ofRat y) := by
  rw [ofRat_eq, ofRat_eq, rank_ofMagnitude (magnitude_le_infinityBits x),
    rank_ofMagnitude (magnitude_le_infinityBits y)]
  simp only [decide_eq_true_eq]
  rcases lt_or_ge x 0 with hx | hx <;> rcases lt_or_ge y 0 with hy | hy
  · have hmono := magnitude_mono (x := y) (y := x) (by rw [abs_of_neg hx, abs_of_neg hy]; linarith)
    rw [if_pos hx, if_pos hy]
    omega
  · rw [if_pos hx, if_neg hy.not_gt]
    omega
  · exact absurd (h.trans_lt hy) hx.not_gt
  · have hmono := magnitude_mono (x := x) (y := y) (by rwa [abs_of_nonneg hx, abs_of_nonneg hy])
    rw [if_neg hx.not_gt, if_neg hy.not_gt]
    omega

theorem notAfter_ofRat (h : x ≤ y) : notAfter (ofRat x) (ofRat y) = true :=
  decide_eq_true (rank_ofRat_mono h)

theorem position_ofRat_mono (h : x ≤ y) : position (ofRat x) ≤ position (ofRat y) := by
  have hrank := rank_ofRat_mono h
  rw [position, position]
  omega

/-- Rationals that are not too large have finite approximations. -/
theorem isFinite_ofRat (h : |x| ≤ 2 ^ 1023) : (ofRat x).isFinite = true := by
  have hbound : magnitude (2 ^ 1023) < infinityBits := by decide +kernel
  have hmono := magnitude_mono (h.trans_eq (abs_of_pos (by positivity : (0 : ℚ) < 2 ^ 1023)).symm)
  rw [ofRat_eq, isFinite_ofMagnitude (magnitude_le_infinityBits x), decide_eq_true_eq]
  omega

/-- Rationals that are not too small have approximations other than zero. -/
theorem beq_zero_ofRat (h : (2 ^ 1022)⁻¹ ≤ |x|) : (ofRat 0 == ofRat x) = false := by
  have hbound : 0 < magnitude (2 ^ 1022)⁻¹ := by decide +kernel
  have hzero : magnitude 0 = 0 := rfl
  have hmono := magnitude_mono
    ((abs_of_pos (by positivity : (0 : ℚ) < (2 ^ 1022)⁻¹)).trans_le h)
  rw [ofRat_eq, ofRat_eq, beq_ofMagnitude (magnitude_le_infinityBits 0)
    (magnitude_le_infinityBits x), decide_eq_false_iff_not, hzero, place, place]
  split <;> omega

/-- Between rationals with finite approximations all approximations are finite. -/
theorem isFinite_ofRat_of_mem {a b : ℚ} (ha : (ofRat a).isFinite = true)
    (hb : (ofRat b).isFinite = true) (h : a ≤ x ∧ x ≤ b) : (ofRat x).isFinite = true := by
  rw [ofRat_eq, isFinite_ofMagnitude (magnitude_le_infinityBits _), decide_eq_true_eq] at ha hb ⊢
  have hle := magnitude_le_infinityBits a
  have hle' := magnitude_le_infinityBits b
  rcases le_total x 0 with hx | hx
  · have hmono := magnitude_mono (x := x) (y := a)
      (by rw [abs_of_nonpos hx, abs_of_nonpos (h.1.trans hx)]; linarith [h.1])
    omega
  · have hmono := magnitude_mono (x := x) (y := b)
      (by rw [abs_of_nonneg hx, abs_of_nonneg (hx.trans h.2)]; exact h.2)
    omega

/-! ### Comparing approximations -/

/-- The approximation of a rational has its place. -/
theorem ofRat_le_iff : ofRat x ≤ ofRat y ↔ position (ofRat x) ≤ position (ofRat y) := by
  rw [ofRat_eq, ofRat_eq, le_ofMagnitude_iff (magnitude_le_infinityBits x)
    (magnitude_le_infinityBits y), position_ofMagnitude (magnitude_le_infinityBits x),
    position_ofMagnitude (magnitude_le_infinityBits y)]

theorem ofRat_beq_iff :
    (ofRat x == ofRat y) = true ↔ position (ofRat x) = position (ofRat y) := by
  rw [ofRat_eq, ofRat_eq, beq_ofMagnitude (magnitude_le_infinityBits x)
    (magnitude_le_infinityBits y), position_ofMagnitude (magnitude_le_infinityBits x),
    position_ofMagnitude (magnitude_le_infinityBits y), decide_eq_true_iff]

/-- Rounding keeps the order. -/
theorem ofRat_le_ofRat (h : x ≤ y) : ofRat x ≤ ofRat y :=
  ofRat_le_iff.2 (position_ofRat_mono h)

/-- Rationals with equal approximations are equal. -/
def Told (x y : ℚ) : Prop := (ofRat x == ofRat y) = true → x = y

instance (x y : ℚ) : Decidable (Told x y) :=
  inferInstanceAs (Decidable ((ofRat x == ofRat y) = true → x = y))

theorem Told.symm (h : Told x y) : Told y x := by
  intro hbeq
  rw [ofRat_beq_iff, eq_comm, ← ofRat_beq_iff] at hbeq
  exact (h hbeq).symm

/-- The order of rationals that are told apart is the order of their approximations. -/
theorem Told.ofRat_le_iff (h : Told y x) : ofRat x ≤ ofRat y ↔ x ≤ y := by
  constructor
  · intro hle
    by_contra hlt
    have hmono := position_ofRat_mono (not_le.1 hlt).le
    rw [Binary64.ofRat_le_iff] at hle
    exact hlt (h (ofRat_beq_iff.2 (le_antisymm hmono hle))).ge
  · exact ofRat_le_ofRat

open Float.Model Float.Model.UnpackedFloat in
/-- It does not matter on which side zero stands when a float is compared with it. -/
theorem ofRat_zero_beq (x : Float) : (ofRat 0 == x) = (x == 0) := by
  have hzero : (0 : Float) = ofRat 0 := rfl
  have hunpack : (ofRat 0).toModel.unpack = .zero .positive := by
    rw [ofRat_eq, unpack_ofMagnitude (magnitude_le_infinityBits 0)]
    rfl
  rw [hzero]
  change ((ofRat 0).toModel.unpack.compare x.toModel.unpack == some .eq) =
    (x.toModel.unpack.compare (ofRat 0).toModel.unpack == some .eq)
  rw [hunpack]
  generalize x.toModel.unpack = u
  cases u with
  | notANumber => rfl
  | infinity s => cases s <;> rfl
  | zero s => cases s <;> rfl
  | finite s m e hm => cases s <;> rfl

end Binary64

end MarketAlgebra
