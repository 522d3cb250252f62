import MarketAlgebra.Proofs.Number.Nearest

/-!
# Packing and rounding

The operations on floats take them apart, compute with integer mantissas, and pack the rounded
result.  A packed float has a sign and a magnitude (`ofUnpacked_finite`), and a rounded mantissa is
packed to the float nearest to its value, as `Binary64.ofRat` gives it (`ofUnpacked_normalize`).

A mantissa is rounded by shifting it to the right one place at a time, while two residual bits keep
what is lost: these decide to which integer the quotient by the power of two is rounded
(`Represents`).  When the rounded mantissa is the next power of two, it is shifted once more
(`ofUnpacked_carry`).
-/

namespace MarketAlgebra.Binary64

open Float.Model Float.Model.UnpackedFloat

variable {s : Bool} {m k : ℕ} {e : ℤ}

/-! ## Packing -/

/-- The float with the given parts. -/
def ofUnpacked (u : UnpackedFloat) : Float := .ofModel (.pack u)

theorem ofUnpacked_eq {u : UnpackedFloat}
    (h : (UnpackedFloat.pack .binary64 u).toNat = signed s m) : ofUnpacked u = ofMagnitude s m := by
  have hbits : (ofUnpacked u).toBits = UInt64.ofNat (signed s m) := by
    change UInt64.ofBitVec (UnpackedFloat.pack .binary64 u) = _
    rw [← h]
    exact UInt64.toNat_inj.1 (by simp)
  rw [ofMagnitude, ← hbits, Float.ofBits_toBits]

/-- A float that was taken apart is packed as it was. -/
theorem ofUnpacked_unpack (x : Float) : ofUnpacked x.toModel.unpack = x := by
  have hbits : (ofUnpacked x.toModel.unpack).toBits = x.toBits := by
    change UInt64.ofBitVec (UnpackedFloat.pack .binary64
      (UnpackedFloat.unpack .binary64 x.toModel.toBits.toBitVec)) = _
    rw [pack_unpack_of_valid x.toModel.valid]
    rfl
  rw [← Float.ofBits_toBits (ofUnpacked _), hbits, Float.ofBits_toBits]

theorem toNat_packComponents (s : Bool) (e : BitVec 11) (m : BitVec 52) :
    (packComponents .binary64 (signOf s) e m).toNat = signed s (e.toNat * 2 ^ 52 + m.toNat) := by
  have hsign : (signOf s).toBitVec.toNat = if s then 1 else 0 := by cases s <;> rfl
  change ((signOf s).toBitVec ++ e ++ m).toNat = _
  rw [BitVec.toNat_append, BitVec.toNat_append, ← Nat.shiftLeft_add_eq_or_of_lt e.isLt,
    ← Nat.shiftLeft_add_eq_or_of_lt m.isLt, hsign, signed, signBit_eq, Nat.shiftLeft_eq,
    Nat.shiftLeft_eq]
  split <;> ring

/-- The bits of the magnitude with a mantissa and the exponent of its last bit. -/
def packedBits (k : ℕ) (e : ℤ) : ℕ :=
  if 2046 < e + 1075 then infinityBits
  else if k.log2 = 52 then (e + 1075).toNat * 2 ^ 52 + k % 2 ^ 52
  else k % 2 ^ 52

theorem packedBits_le (k : ℕ) (e : ℤ) : packedBits k e ≤ infinityBits := by
  have hinf := infinityBits_eq
  unfold packedBits
  split_ifs <;> omega

theorem ofUnpacked_finite (s : Bool) (k : ℕ) (e : ℤ) (hk : 0 < k) :
    ofUnpacked (.finite (signOf s) k e hk) = ofMagnitude s (packedBits k e) := by
  have hinf := infinityBits_eq
  refine ofUnpacked_eq ?_
  have hbiased : (e + Format.binary64.exponentBias +
      Format.binary64.mantissaBitsWithoutImplicit).toNat = (e + 1075).toNat := by
    change (e + 1023 + 52).toNat = _
    omega
  rw [UnpackedFloat.pack, packedBits]
  simp only [hbiased]
  change (if 2048 ≤ (e + 1075).toNat + 1 then _
    else if k.log2 + 1 = 53 then _ else _ : BitVec _).toNat = _
  by_cases htop : 2046 < e + 1075
  · rw [if_pos (by omega), if_pos htop, packedInfinity, toNat_packComponents]
    rfl
  · rw [if_neg (by omega), if_neg htop]
    by_cases hnormal : k.log2 = 52
    · rw [if_pos (by omega), if_pos hnormal, toNat_packComponents, BitVec.toNat_ofNat,
        BitVec.toNat_ofNat]
      congr 3
      exact Nat.mod_eq_of_lt (by change _ < 2048; omega)
    · rw [if_neg (by omega), if_neg hnormal, toNat_packComponents, BitVec.toNat_ofNat]
      congr 1
      simp

theorem ofUnpacked_zero (s : Bool) : ofUnpacked (.zero (signOf s)) = ofMagnitude s 0 := by
  refine ofUnpacked_eq ?_
  rw [UnpackedFloat.pack, packedZero, toNat_packComponents]
  rfl

theorem ofUnpacked_infinity (s : Bool) :
    ofUnpacked (.infinity (signOf s)) = ofMagnitude s infinityBits := by
  refine ofUnpacked_eq ?_
  rw [UnpackedFloat.pack, packedInfinity, toNat_packComponents]
  rfl

/-- The exponent stands in front of a mantissa without its leading bit. -/
theorem packedBits_eq (hk : k < 2 ^ 53) (he : leastExponent ≤ e)
    (hleast : k < 2 ^ 52 → e = leastExponent) :
    packedBits k e = min ((e - leastExponent).toNat * 2 ^ 52 + k) infinityBits := by
  have hinf := infinityBits_eq
  have hnormal : k.log2 = 52 ↔ 2 ^ 52 ≤ k := by
    constructor
    · intro h
      rw [← h]
      exact Nat.log2_self_le (by rintro rfl; simp at h)
    · intro h
      exact (Nat.log2_eq_iff (by omega)).2 ⟨h, hk⟩
  rw [packedBits]
  rw [leastExponent] at *
  split_ifs <;> omega

/-! ## Rounding -/

/-- The residual bits of a quotient: whether it exceeds its integer part by a half at least, and
whether it does so by anything else. -/
structure Represents (em : ExtendedMantissa) (n d : ℕ) : Prop where
  mantissa : em.mantissa = n / d
  roundBit : em.roundBit = decide (d ≤ 2 * (n % d))
  stickyBit : em.stickyBit = decide (2 * (n % d) % d ≠ 0)

theorem Represents.shiftRightOne {em : ExtendedMantissa} {n d : ℕ} (hd : 0 < d)
    (h : Represents em n d) : Represents em.shiftRightOne n (d * 2) := by
  obtain ⟨hmantissa, hround, hsticky⟩ := h
  have hrest : n % (d * 2) = n % d + d * (n / d % 2) := Nat.mod_mul
  have hlt : n % d < d := Nat.mod_lt n hd
  refine ⟨?_, ?_, ?_⟩
  · rw [ExtendedMantissa.shiftRightOne, hmantissa, Nat.div_div_eq_div_mul]
  · rw [ExtendedMantissa.shiftRightOne, hmantissa, hrest]
    rcases Nat.mod_two_eq_zero_or_one (n / d) with h | h <;> simp [h] <;> omega
  · have hdouble : 2 * (n % (d * 2)) % (d * 2) = 2 * (n % d) := by
      rw [hrest, mul_comm d 2, Nat.mul_mod_mul_left, Nat.add_mul_mod_self_left, Nat.mod_mod]
    rw [ExtendedMantissa.shiftRightOne, hdouble]
    dsimp only
    rw [hround, hsticky, ← Bool.decide_or, decide_eq_decide]
    rcases lt_or_ge (2 * (n % d)) d with hsmall | hlarge
    · rw [Nat.mod_eq_of_lt hsmall, or_iff_right hsmall.not_ge]
    · exact iff_of_true (.inl hlarge) (by omega)

/-- Shifting to the right divides by a power of two. -/
theorem represents_shiftRight (n i : ℕ) :
    Represents ((⟨n, false, false⟩ : ExtendedMantissa) >>> i) n (2 ^ i) := by
  change Represents (i.repeat ExtendedMantissa.shiftRightOne ⟨n, false, false⟩) n (2 ^ i)
  induction i with
  | zero =>
    rw [Nat.repeat, pow_zero]
    exact ⟨(Nat.div_one n).symm, by simp [Nat.mod_one], by simp [Nat.mod_one]⟩
  | succ i ih =>
    rw [Nat.repeat, pow_succ]
    exact ih.shiftRightOne (by positivity)

/-- The residual bits are what is needed to round to the nearest integer. -/
theorem Represents.roundedMantissa {em : ExtendedMantissa} {n d : ℕ} (hd : 0 < d)
    (h : Represents em n d) : em.roundedMantissa = roundDiv .toEven n d := by
  obtain ⟨q, r, s⟩ := em
  obtain ⟨hq, hr, hs⟩ := h
  dsimp only at hq hr hs
  have hlt : n % d < d := Nat.mod_lt n hd
  rw [roundDiv, ← hq]
  rcases lt_trichotomy (2 * (n % d)) d with hsmall | hhalf | hlarge
  · rw [if_pos hsmall, hr, decide_eq_false hsmall.not_ge]
    cases s <;> rfl
  · rw [if_neg hhalf.not_lt, if_neg hhalf.not_gt, hr, hs, hhalf, Nat.mod_self,
      decide_eq_true le_rfl, decide_eq_false (not_not.2 rfl)]
    rfl
  · have hne : 2 * (n % d) % d ≠ 0 := by
      rw [Nat.mod_eq_sub_mod hlarge.le, Nat.mod_eq_of_lt (by omega)]
      omega
    rw [if_neg hlarge.not_gt, if_pos hlarge, hr, hs, decide_eq_true hlarge.le, decide_eq_true hne]
    rfl

/-- Whatever a mantissa is rounded to, the sign does not matter. -/
theorem exists_roundWithAccuracy (k : ℕ) (e : ℤ) (a : Accuracy) : ∃ m ≤ infinityBits, ∀ s,
    ofUnpacked (roundWithAccuracy .binary64 (signOf s) k e a) = ofMagnitude s m := by
  unfold roundWithAccuracy
  dsimp only
  generalize shiftToTargetExponent _ _ _ _ = final
  by_cases h : final.1.mantissa = 0
  · refine ⟨0, Nat.zero_le _, fun s => ?_⟩
    rw [dif_pos h, ofUnpacked_zero]
  · refine ⟨packedBits final.1.mantissa final.2, packedBits_le _ _, fun s => ?_⟩
    rw [dif_neg h, ofUnpacked_finite]

theorem targetExponent_eq (k : ℕ) (e : ℤ) : Format.binary64.targetExponent (totalExponent k e) =
    max (k.log2 + e - 52) leastExponent := by
  rw [Format.targetExponent, totalExponent]
  change max ((k.log2 : ℤ) + 1 + e - 53) leastExponent = _
  congr 1
  ring

theorem shiftRight_zero (em : ExtendedMantissa) : em >>> 0 = em := rfl

/-- A rounded mantissa is shifted once more when it is the next power of two. -/
theorem ofUnpacked_carry (s : Bool) {final : ExtendedMantissa × ℤ} (hk : k ≤ 2 ^ 53)
    (he : leastExponent ≤ e) (hleast : k < 2 ^ 52 → e = leastExponent)
    (hfinal : shiftToTargetExponent .binary64 k e .exact = final) :
    ofUnpacked (if h : final.1.mantissa = 0 then .zero (signOf s)
      else .finite (signOf s) final.1.mantissa final.2 (Nat.pos_of_ne_zero h)) =
    ofMagnitude s (min ((e - leastExponent).toNat * 2 ^ 52 + k) infinityBits) := by
  rw [shiftToTargetExponent, shiftToExponent, targetExponent_eq] at hfinal
  dsimp only [ExtendedMantissa.ofMantissaAndAccuracy] at hfinal
  rcases hk.lt_or_eq with hlt | rfl
  · have hlog : k.log2 ≤ 52 := by
      rcases Nat.eq_zero_or_pos k with rfl | hpos
      · simp
      · have := (Nat.log2_lt hpos.ne').2 hlt
        omega
    have hshift : (max ((k.log2 : ℤ) + e - 52) leastExponent - e).toNat = 0 := by omega
    rw [hshift, shiftRight_zero, Nat.cast_zero, add_zero] at hfinal
    subst hfinal
    dsimp only
    by_cases hzero : k = 0
    · rw [dif_pos hzero, ofUnpacked_zero, hzero, hleast (by omega), sub_self]
      rfl
    · rw [dif_neg hzero, ofUnpacked_finite, packedBits_eq hlt he hleast]
  · have hshift : (max (((2 ^ 53).log2 : ℤ) + e - 52) leastExponent - e).toNat = 1 := by
      rw [Nat.log2_two_pow]
      omega
    rw [hshift] at hfinal
    have hmantissa : final.1.mantissa = 2 ^ 52 := by
      rw [← hfinal, (represents_shiftRight (2 ^ 53) 1).mantissa]
      norm_num
    have hexponent : final.2 = e + 1 := by
      rw [← hfinal, Nat.cast_one]
    have hne : final.1.mantissa ≠ 0 := by
      rw [hmantissa]
      positivity
    have hsum : (e + 1 - leastExponent).toNat * 2 ^ 52 + 2 ^ 52 =
        (e - leastExponent).toNat * 2 ^ 52 + 2 ^ 53 := by omega
    rw [dif_neg hne, ofUnpacked_finite, hmantissa, hexponent, packedBits_eq (by norm_num)
      (by omega) (fun hlt => absurd hlt (lt_irrefl _)), hsum]

theorem log2_shiftLeft (hk : 0 < k) (i : ℕ) : (k <<< i).log2 = k.log2 + i := by
  rw [Nat.shiftLeft_eq, Nat.log2_eq_iff (by positivity), add_right_comm, pow_add, pow_add]
  exact ⟨Nat.mul_le_mul_right _ (Nat.log2_self_le hk.ne'),
    Nat.mul_lt_mul_of_pos_right Nat.lt_log2_self (by positivity)⟩

/-- The exponent that leaves 53 bits of a shifted mantissa. -/
theorem lastExponent_eq {n d : ℕ} (hk : 0 < k) (hn : 0 < n) (hd : 0 < d)
    (h : (n / d : ℚ) = k * 2 ^ e) : lastExponent n d = max (k.log2 + e - 52) leastExponent := by
  have htwo : (0 : ℚ) < 2 ^ e := by positivity
  have hlog : binaryExponent n d = k.log2 + e := by
    refine binaryExponent_eq hn hd ?_ ?_
    · rw [h, zpow_add₀ two_ne_zero, zpow_natCast]
      exact mul_le_mul_of_nonneg_right (by exact_mod_cast Nat.log2_self_le hk.ne') htwo.le
    · rw [h, add_right_comm, zpow_add₀ two_ne_zero, ← Nat.cast_succ, zpow_natCast]
      exact mul_lt_mul_of_pos_right (by exact_mod_cast Nat.lt_log2_self) htwo
  rw [lastExponent, hlog, storedBits]
  rfl

/-- A mantissa is shifted to the left or to the right, but not both. -/
theorem shiftToTargetExponent_shiftLeft {q : ℤ} (hk : 0 < k)
    (hq : q = max (k.log2 + e - 52) leastExponent) :
    shiftToTargetExponent .binary64 (k <<< (e - q).toNat) (e - (e - q).toNat) .exact =
      ((⟨k <<< (e - q).toNat, false, false⟩ : ExtendedMantissa) >>> (q - e).toNat, q) := by
  have htarget : max (((k.log2 + (e - q).toNat : ℕ) : ℤ) + (e - (e - q).toNat) - 52)
      leastExponent = q := by
    push_cast
    omega
  have hshift : (q - (e - (e - q).toNat)).toNat = (q - e).toNat := by omega
  have hexponent : e - (e - q).toNat + (q - e).toNat = q := by omega
  rw [shiftToTargetExponent, shiftToExponent, targetExponent_eq, log2_shiftLeft hk, htarget, hshift,
    hexponent]
  rfl

/-- Rounding a mantissa gives the float nearest to its value. -/
theorem ofUnpacked_round (s : Bool) {n d : ℕ} (hk : 0 < k) (hn : 0 < n) (hd : 0 < d)
    (h : (n / d : ℚ) = k * 2 ^ e) :
    ofUnpacked (UnpackedFloat.round .binary64 (signOf s) k e) =
      ofMagnitude s (magnitudeBits n d) := by
  have hlast := lastExponent_eq hk hn hd h
  have hle : leastExponent ≤ lastExponent n d := le_max_right _ _
  have hleast : mantissa n d < 2 ^ 52 → lastExponent n d = leastExponent := by
    intro hlt
    by_contra hne
    exact hlt.not_ge (le_mantissa hn hd (hle.lt_of_ne' hne))
  have hmantissa : roundDiv .toEven (k <<< (e - lastExponent n d).toNat)
      (2 ^ (lastExponent n d - e).toNat) = mantissa n d := by
    refine roundDiv_congr (by positivity) (shift_pos hd _) ?_
    have hscaled := shift_div_shift k 1 (lastExponent n d - e)
    rw [neg_sub, Nat.one_shiftLeft] at hscaled
    rw [hscaled, shift_div_shift, h, zpow_sub₀ two_ne_zero, Nat.cast_one, div_one,
      div_div_eq_mul_div]
  rw [UnpackedFloat.round, targetExponent_eq, ← hlast, decreaseExponent]
  dsimp only
  rw [roundWithAccuracy, shiftToTargetExponent_shiftLeft hk hlast]
  dsimp only
  rw [(represents_shiftRight _ _).roundedMantissa (by positivity), hmantissa,
    ofUnpacked_carry s (mantissa_le hn hd) hle hleast rfl, magnitudeBits_eq hn]

/-- A signed mantissa is rounded as the rational is that it stands for. -/
theorem ofUnpacked_normalize (z e : ℤ) :
    ofUnpacked (UnpackedFloat.normalize .binary64 z e .positive) = ofRat (z * 2 ^ e) := by
  have htwo : (0 : ℚ) < 2 ^ e := by positivity
  have hnum : ∀ {x : ℚ}, x ≠ 0 → 0 < x.num.natAbs := fun h => Int.natAbs_pos.2 (Rat.num_ne_zero.2 h)
  rw [ofRat_eq, UnpackedFloat.normalize]
  rcases lt_trichotomy z 0 with hneg | rfl | hpos
  · have hz : (z : ℚ) < 0 := Int.cast_lt_zero.2 hneg
    have habs : ((-z).toNat : ℚ) = -z := by
      exact_mod_cast congrArg (Int.cast (R := ℚ)) (Int.toNat_of_nonneg (neg_nonneg.2 hneg.le))
    rw [compare_lt_iff_lt.2 hneg, decide_eq_true (mul_neg_of_neg_of_pos hz htwo)]
    refine ofUnpacked_round true (by omega) (hnum (mul_ne_zero hz.ne htwo.ne')) (Rat.den_pos _) ?_
    rw [natAbs_num_div_den, habs, abs_mul, abs_of_neg hz, abs_of_pos htwo]
  · rw [compare_eq_iff_eq.2 rfl, Int.cast_zero, zero_mul]
    exact ofUnpacked_zero false
  · have hz : (0 : ℚ) < z := Int.cast_pos.2 hpos
    have habs : (z.toNat : ℚ) = z := by
      exact_mod_cast congrArg (Int.cast (R := ℚ)) (Int.toNat_of_nonneg hpos.le)
    rw [compare_gt_iff_gt.2 hpos, decide_eq_false (mul_pos hz htwo).not_gt]
    refine ofUnpacked_round false (by omega) (hnum (mul_pos hz htwo).ne') (Rat.den_pos _) ?_
    rw [natAbs_num_div_den, habs, abs_mul, abs_of_pos hz, abs_of_pos htwo]

end MarketAlgebra.Binary64
