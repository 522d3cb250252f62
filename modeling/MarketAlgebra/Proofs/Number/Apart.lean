import MarketAlgebra.Proofs.Number.Nearest

/-!
# Rationals with different approximations

Away from the ends of the range, a rounded magnitude is off by one part in `2 ^ 53` at most
(`abs_rounded_sub_le`), and equal bits stand for equal rounded magnitudes (`rounded_eq`).  So
rationals that are further apart than one part in `2 ^ 52` have different approximations
(`magnitudeBits_lt`).  Fractions of small integers are (`rank_ofRat_lt_of_small`).
-/

namespace MarketAlgebra.Binary64

variable {n d n' d' : ℕ}

/-! ## Rounded magnitudes -/

/-- The magnitude to which a quotient is rounded. -/
def rounded (n d : ℕ) : ℚ := mantissa n d * 2 ^ lastExponent n d

/-- A quotient that is not too small has 53 significant bits. -/
theorem two_pow_lastExponent_le (hn : 0 < n) (hd : 0 < d) (hsmall : (2 : ℚ) ^ (-1022 : ℤ) ≤ n / d) :
    (2 : ℚ) ^ lastExponent n d * 2 ^ 52 ≤ n / d := by
  have hpow : (2 : ℚ) ^ lastExponent n d * 2 ^ 52 = 2 ^ (lastExponent n d + 52) := by
    rw [zpow_add₀ two_ne_zero]
    norm_num
  rw [hpow]
  rcases le_total (binaryExponent n d - storedBits) leastExponent with hle | hle
  · rw [lastExponent, max_eq_right hle]
    exact hsmall
  · rw [lastExponent, max_eq_left hle, storedBits]
    convert (binaryExponent_spec hn hd).1 using 2
    omega

/-- Rounding moves a quotient by one part in `2 ^ 53` at most. -/
theorem abs_rounded_sub_le (hn : 0 < n) (hd : 0 < d) (hsmall : (2 : ℚ) ^ (-1022 : ℤ) ≤ n / d) :
    |rounded n d - n / d| ≤ n / d / 2 ^ 53 := by
  have htwo : (0 : ℚ) < 2 ^ lastExponent n d := by positivity
  have hround := abs_roundDiv_sub_le (n <<< (-lastExponent n d).toNat)
    (shift_pos hd (lastExponent n d))
  rw [shift_div_shift, ← mantissa] at hround
  have hscaled : rounded n d - n / d =
      (mantissa n d - n / d / 2 ^ lastExponent n d) * 2 ^ lastExponent n d := by
    rw [sub_mul, div_mul_cancel₀ _ htwo.ne', rounded]
  have hlast := two_pow_lastExponent_le hn hd hsmall
  calc |rounded n d - n / d|
      = |(mantissa n d : ℚ) - n / d / 2 ^ lastExponent n d| * 2 ^ lastExponent n d := by
        rw [hscaled, abs_mul, abs_of_pos htwo]
    _ ≤ 1 / 2 * 2 ^ lastExponent n d := mul_le_mul_of_nonneg_right hround htwo.le
    _ ≤ n / d / 2 ^ 53 := by
        rw [le_div_iff₀ (by positivity)]
        linarith

/-- Equal bits of finite magnitudes stand for the same rounded magnitude.  When the exponents
differ, one mantissa has been rounded up to the next power of two. -/
theorem rounded_eq (hn : 0 < n) (hd : 0 < d) (hn' : 0 < n') (hd' : 0 < d')
    (hle : lastExponent n d ≤ lastExponent n' d')
    (hbits : magnitudeBits n d = magnitudeBits n' d')
    (hfinite : magnitudeBits n' d' < infinityBits) : rounded n d = rounded n' d' := by
  have hleast : leastExponent ≤ lastExponent n d := le_max_right _ _
  have hfinite' : magnitudeBits n d < infinityBits := hbits ▸ hfinite
  rw [magnitudeBits_eq hn, min_lt_iff, or_iff_left (lt_irrefl _)] at hfinite'
  rw [magnitudeBits_eq hn', min_lt_iff, or_iff_left (lt_irrefl _)] at hfinite
  rw [magnitudeBits_eq hn, magnitudeBits_eq hn', min_eq_left hfinite'.le,
    min_eq_left hfinite.le] at hbits
  rcases hle.lt_or_eq with hlt | heq
  · have hup := mantissa_le hn hd
    have hlow := le_mantissa hn' hd' (hleast.trans_lt hlt)
    have hexponent : lastExponent n' d' = lastExponent n d + 1 := by omega
    have hmantissa : mantissa n d = 2 ^ 53 := by omega
    have hmantissa' : mantissa n' d' = 2 ^ 52 := by omega
    rw [rounded, rounded, hexponent, hmantissa, hmantissa', zpow_add_one₀ two_ne_zero]
    push_cast
    ring
  · have hmantissa : mantissa n d = mantissa n' d' := by omega
    rw [rounded, rounded, hmantissa, heq]

/-- Quotients that are further apart than one part in `2 ^ 52` have different bits. -/
theorem magnitudeBits_lt (hn : 0 < n) (hd : 0 < d) (hd' : 0 < d')
    (hsmall : (2 : ℚ) ^ (-1022 : ℤ) ≤ n / d) (hfinite : magnitudeBits n' d' < infinityBits)
    (hgap : (n' / d' : ℚ) < 2 ^ 52 * (n' / d' - n / d)) :
    magnitudeBits n d < magnitudeBits n' d' := by
  have hpos : (0 : ℚ) < n / d := by positivity
  have hlt : (n / d : ℚ) < n' / d' := by
    by_contra hle
    have hnonneg : (0 : ℚ) ≤ n' / d' := by positivity
    nlinarith
  have hn' : 0 < n' := by
    rw [Nat.pos_iff_ne_zero]
    rintro rfl
    rw [Nat.cast_zero, zero_div] at hlt
    exact hpos.not_gt hlt
  refine (magnitudeBits_mono hd hd' hlt.le).lt_of_ne fun hbits => ?_
  have hexponent : lastExponent n d ≤ lastExponent n' d' :=
    max_le_max (sub_le_sub_right (binaryExponent_mono hn hd hd' hlt.le) _) le_rfl
  have heq := rounded_eq hn hd hn' hd' hexponent hbits hfinite
  have herror := abs_rounded_sub_le hn hd hsmall
  have herror' := abs_rounded_sub_le hn' hd' (hsmall.trans hlt.le)
  rw [← heq, abs_le] at herror'
  rw [abs_le] at herror
  linarith

/-! ## Fractions of small integers -/

/-- A rational whose numerator and denominator have at most 26 bits. -/
def Small (x : ℚ) : Prop := x.num.natAbs < 2 ^ 26 ∧ x.den < 2 ^ 26

variable {x y : ℚ}

theorem magnitude_neg (x : ℚ) : magnitude (-x) = magnitude x := by
  rw [magnitude, Rat.num_neg_eq_neg_num, Int.natAbs_neg, Rat.den_neg_eq_den, magnitude]

theorem Small.neg (h : Small x) : Small (-x) := by
  rw [Small, Rat.num_neg_eq_neg_num, Int.natAbs_neg, Rat.den_neg_eq_den]
  exact h

/-- Different fractions differ at least by the product of their denominators. -/
theorem lt_mul_sub_of_small (hd : 0 < d) (hd' : 0 < d') (hlt : (n / d : ℚ) < n' / d')
    (hsmall : d < 2 ^ 26) (hsmall' : n' < 2 ^ 26) :
    (n' / d' : ℚ) < 2 ^ 52 * (n' / d' - n / d) := by
  have hdq : (0 : ℚ) < d := Nat.cast_pos.2 hd
  have hdq' : (0 : ℚ) < d' := Nat.cast_pos.2 hd'
  have hcross : n * d' + 1 ≤ n' * d := by
    rw [div_lt_div_iff₀ hdq hdq'] at hlt
    exact_mod_cast hlt
  have hproduct : n' * d < 2 ^ 52 := by
    calc n' * d < 2 ^ 26 * 2 ^ 26 := Nat.mul_lt_mul'' hsmall' hsmall
      _ = 2 ^ 52 := by norm_num
  have hcrossq : (n * d' + 1 : ℚ) ≤ n' * d := by exact_mod_cast hcross
  have hproductq : (n' * d : ℚ) < 2 ^ 52 := by exact_mod_cast hproduct
  rw [div_sub_div _ _ hdq'.ne' hdq.ne', mul_div_assoc', div_lt_div_iff₀ hdq' (by positivity)]
  nlinarith [mul_pos hdq hdq']

theorem Small.le_abs (h : Small x) (hx : x ≠ 0) : (2 ^ 26 : ℚ)⁻¹ ≤ |x| := by
  have hnum : (1 : ℚ) ≤ x.num.natAbs := by
    exact_mod_cast Int.natAbs_pos.2 (Rat.num_ne_zero.2 hx)
  have hden : (x.den : ℚ) ≤ 2 ^ 26 := by exact_mod_cast h.2.le
  have hden' : (0 : ℚ) < x.den := Nat.cast_pos.2 x.den_pos
  rw [← natAbs_num_div_den, ← one_div]
  exact div_le_div₀ (Nat.cast_nonneg _) hnum hden' hden

theorem Small.abs_le (h : Small x) : |x| ≤ 2 ^ 26 := by
  have hnum : (x.num.natAbs : ℚ) ≤ 2 ^ 26 := by exact_mod_cast h.1.le
  have hden : (1 : ℚ) ≤ x.den := by exact_mod_cast x.den_pos
  rw [← natAbs_num_div_den]
  exact (div_le_self (Nat.cast_nonneg _) hden).trans hnum

theorem magnitude_lt_of_small (hx : Small x) (hy : Small y) (hpos : 0 ≤ x) (hlt : x < y) :
    magnitude x < magnitude y := by
  have hy0 : 0 < y := hpos.trans_lt hlt
  rcases hpos.eq_or_lt with rfl | hx0
  · have hleast : 0 < magnitude (2 ^ 26)⁻¹ := by decide +kernel
    have hmono := magnitude_mono ((abs_of_pos (by positivity)).trans_le (hy.le_abs hy0.ne'))
    exact hleast.trans_le hmono
  · have hfinite : magnitude (2 ^ 26) < infinityBits := by decide
    have hmono := magnitude_mono (hy.abs_le.trans_eq (abs_of_pos (by positivity)).symm)
    have hxq : (x.num.natAbs : ℚ) / x.den = x := (natAbs_num_div_den x).trans (abs_of_pos hx0)
    have hyq : (y.num.natAbs : ℚ) / y.den = y := (natAbs_num_div_den y).trans (abs_of_pos hy0)
    have hnum : 0 < x.num.natAbs := Int.natAbs_pos.2 (Rat.num_ne_zero.2 hx0.ne')
    refine magnitudeBits_lt hnum x.den_pos y.den_pos ?_ (hmono.trans_lt hfinite) ?_
    · rw [natAbs_num_div_den]
      refine le_trans ?_ (hx.le_abs hx0.ne')
      rw [zpow_neg]
      have hpow : (26 : ℤ) ≤ 1022 := by norm_num
      exact inv_anti₀ (by positivity) (zpow_le_zpow_right₀ one_le_two hpow)
    · exact lt_mul_sub_of_small x.den_pos y.den_pos (by rwa [hxq, hyq]) hx.2 hy.1

theorem rank_ofRat_of_neg (h : x < 0) : rank (ofRat x) = -magnitude x - 1 := by
  rw [ofRat_eq, rank_ofMagnitude (magnitude_le_infinityBits x), if_pos (decide_eq_true h)]

theorem rank_ofRat_of_nonneg (h : 0 ≤ x) : rank (ofRat x) = magnitude x := by
  rw [ofRat_eq, rank_ofMagnitude (magnitude_le_infinityBits x), if_neg (by simpa using h)]

/-- Rationals of different signs have different approximations. -/
theorem rank_ofRat_lt_of_sign (hx : x < 0) (hy : 0 ≤ y) : rank (ofRat x) < rank (ofRat y) := by
  rw [rank_ofRat_of_neg hx, rank_ofRat_of_nonneg hy]
  omega

/-- Fractions of small integers have different approximations. -/
theorem rank_ofRat_lt_of_small (hx : Small x) (hy : Small y) (h : x < y) :
    rank (ofRat x) < rank (ofRat y) := by
  rcases lt_or_ge x 0 with hx0 | hx0 <;> rcases lt_or_ge y 0 with hy0 | hy0
  · have hlt := magnitude_lt_of_small hy.neg hx.neg (neg_nonneg.2 hy0.le) (neg_lt_neg h)
    rw [magnitude_neg, magnitude_neg] at hlt
    rw [rank_ofRat_of_neg hx0, rank_ofRat_of_neg hy0]
    omega
  · exact rank_ofRat_lt_of_sign hx0 hy0
  · exact absurd (h.trans hy0) hx0.not_gt
  · have hlt := magnitude_lt_of_small hx hy hx0 h
    rw [rank_ofRat_of_nonneg hx0, rank_ofRat_of_nonneg hy0]
    omega

end MarketAlgebra.Binary64
