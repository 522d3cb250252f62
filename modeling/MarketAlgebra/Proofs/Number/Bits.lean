import Mathlib
import MarketAlgebra.Number.Binary64

/-!
# Floats and their bits

A float that is defined is given by its sign and the bits of its magnitude (`ofMagnitude`): these
bits are kept when it is packed (`toBits_ofMagnitude`), and they order the floats.  The comparison
of IEEE 754 takes floats apart and compares exponents before mantissas.  Since the exponent stands
in front of the mantissa, it is the comparison of the places of the magnitudes on the line of
integers, where both zeros have the place zero (`compare_ofMagnitude`).
-/

namespace MarketAlgebra.Binary64

open Float.Model Float.Model.UnpackedFloat

/-! ## Fields of packed bits -/

theorem toNat_unpackMantissa (b : BitVec 64) :
    (@unpackMantissa .binary64 b).toNat = b.toNat % 2 ^ 52 := by
  simp [unpackMantissa, BitVec.extractLsb_toNat]

theorem toNat_unpackExponent (b : BitVec 64) :
    (@unpackExponent .binary64 b).toNat = b.toNat / 2 ^ 52 % 2 ^ 11 := by
  simp [unpackExponent, BitVec.extractLsb_toNat, Nat.shiftRight_eq_div_pow]

theorem toNat_unpackSign (b : BitVec 64) :
    (@unpackSign .binary64 b).toNat = b.toNat / 2 ^ 63 := by
  have hlt : b.toNat < 2 ^ 64 := b.isLt
  simp [unpackSign, BitVec.extractLsb_toNat, Nat.shiftRight_eq_div_pow]
  omega

/-- A mantissa with its leading bit. -/
theorem toNat_one_append (m : BitVec 52) : (1#1 ++ m).toNat = m.toNat + 2 ^ 52 := by
  rw [BitVec.toNat_append]
  change 2 ^ 52 ||| m.toNat = _
  rw [Nat.or_comm, Nat.or_two_pow_eq_add_of_lt m.isLt]

/-! ## Floats from bits -/

/-- The bits of a float with a sign. -/
def signed (negative : Bool) (m : Nat) : Nat := (if negative then signBit else 0) + m

/-- The float with a sign and the bits of a magnitude. -/
def ofMagnitude (negative : Bool) (m : Nat) : Float :=
  Float.ofBits (UInt64.ofNat (signed negative m))

variable {s t : Bool} {m n : Nat}

theorem infinityBits_eq : infinityBits = 2047 * 2 ^ 52 := rfl

theorem signBit_eq : signBit = 2 ^ 63 := rfl

theorem signed_mod (hm : m ≤ infinityBits) : signed s m % 2 ^ 63 = m := by
  rw [infinityBits_eq] at hm
  rw [signed, signBit_eq]
  split <;> omega

theorem signed_div (hm : m ≤ infinityBits) :
    signed s m / 2 ^ 63 = if s then 1 else 0 := by
  rw [infinityBits_eq] at hm
  rw [signed, signBit_eq]
  split <;> omega

/-- The bits of a float that is defined are those it was made from. -/
theorem toBits_ofMagnitude (hm : m ≤ infinityBits) :
    (ofMagnitude s m).toBits.toNat = signed s m := by
  have hmod := signed_mod (s := s) hm
  have hdiv := signed_div (s := s) hm
  rw [infinityBits_eq] at hm
  have hlt : signed s m < 2 ^ 64 := by
    split at hdiv <;> omega
  have hvec : (UInt64.ofNat (signed s m)).toBitVec.toNat = signed s m := by
    simp
    omega
  have hvalid : Format.binary64.Valid (UInt64.ofNat (signed s m)).toBitVec := by
    refine ⟨fun he hm0 => absurd (BitVec.eq_of_toNat_eq ?_) hm0⟩
    have he' := congrArg BitVec.toNat he
    rw [toNat_unpackExponent, hvec] at he'
    change signed s m / 2 ^ 52 % 2 ^ 11 = 2047 at he'
    rw [toNat_unpackMantissa, hvec]
    change signed s m % 2 ^ 52 = 0
    omega
  change (UInt64.ofBitVec (UnpackedFloat.pack .binary64 _)).toNat = _
  rw [pack_unpack_of_valid hvalid]
  exact hvec

/-! ## Comparison -/

/-- The mantissa of a finite magnitude, with its leading bit. -/
def mantissaOf (m : Nat) : Nat := if m < 2 ^ 52 then m else m % 2 ^ 52 + 2 ^ 52

/-- The exponent of the last mantissa bit of a finite magnitude. -/
def exponentOf (m : Nat) : Int := if m < 2 ^ 52 then leastExponent else m / 2 ^ 52 - 1075

theorem mantissaOf_pos (h : 0 < m) : 0 < mantissaOf m := by
  rw [mantissaOf]
  split <;> omega

/-- The sign as the model of floats has it. -/
def signOf (negative : Bool) : Sign := if negative then .negative else .positive

theorem finite_congr {e f : Int} (hm : 0 < m) (hn : 0 < n) (hmn : m = n) (hef : e = f) (s : Sign) :
    UnpackedFloat.finite s m e hm = .finite s n f hn := by
  subst hmn hef
  rfl

/-- The parts of a float from its sign and its magnitude. -/
theorem unpack_ofMagnitude (hm : m ≤ infinityBits) :
    (ofMagnitude s m).toModel.unpack =
      if h : 0 < m then
        if m = infinityBits then .infinity (signOf s)
        else .finite (signOf s) (mantissaOf m) (exponentOf m) (mantissaOf_pos h)
      else .zero (signOf s) := by
  have hmod := signed_mod (s := s) hm
  have hdiv := signed_div (s := s) hm
  have hbits : (ofMagnitude s m).toBits.toBitVec.toNat = signed s m := toBits_ofMagnitude hm
  have hinf := infinityBits_eq
  change UnpackedFloat.unpack .binary64 (ofMagnitude s m).toBits.toBitVec = _
  generalize (ofMagnitude s m).toBits.toBitVec = b at hbits
  have hmant : (@unpackMantissa .binary64 b).toNat = m % 2 ^ 52 := by
    rw [toNat_unpackMantissa, hbits]
    omega
  have hexp : (@unpackExponent .binary64 b).toNat = m / 2 ^ 52 := by
    rw [toNat_unpackExponent, hbits]
    omega
  have hsign : Sign.ofBitVec (@unpackSign .binary64 b) = signOf s := by
    have h : (@unpackSign .binary64 b).toNat = if s then 1 else 0 := by
      rw [toNat_unpackSign, hbits, hdiv]
    cases s
    · rw [show @unpackSign .binary64 b = 0#1 from BitVec.eq_of_toNat_eq h]
      rfl
    · rw [show @unpackSign .binary64 b = 1#1 from BitVec.eq_of_toNat_eq h]
      rfl
  have hzero : @unpackMantissa .binary64 b = 0#_ ↔ m % 2 ^ 52 = 0 := by
    rw [← BitVec.toNat_inj, hmant]
    rfl
  have hlow : @unpackExponent .binary64 b = 0#_ ↔ m < 2 ^ 52 := by
    rw [← BitVec.toNat_inj, hexp]
    change m / 2 ^ 52 = 0 ↔ _
    omega
  have htop : @unpackExponent .binary64 b = -1#_ ↔ m = infinityBits := by
    rw [← BitVec.toNat_inj, hexp]
    change m / 2 ^ 52 = 2047 ↔ _
    omega
  rw [UnpackedFloat.unpack]
  simp only [hsign]
  by_cases hpos : 0 < m
  · rw [dif_pos hpos]
    by_cases htop' : m = infinityBits
    · rw [if_pos (htop.2 htop'), if_pos (hzero.2 (by omega)), if_pos htop']
    · rw [if_neg (mt htop.1 htop'), if_neg htop']
      by_cases hlow' : m < 2 ^ 52
      · rw [if_pos (hlow.2 hlow'), dif_neg (mt hzero.1 (by omega))]
        refine finite_congr _ _ ?_ ?_ _
        · rw [hmant, mantissaOf, if_pos hlow']
          omega
        · rw [hexp, exponentOf, if_pos hlow', Nat.div_eq_of_lt hlow']
          rfl
      · rw [if_neg (mt hlow.1 hlow')]
        refine finite_congr _ _ ?_ ?_ _
        · rw [toNat_one_append, hmant, mantissaOf, if_neg hlow']
        · rw [hexp, exponentOf, if_neg hlow']
          rfl
  · rw [dif_neg hpos, if_neg (mt htop.1 (by omega)), if_pos (hlow.2 (by omega)),
      dif_pos (hzero.2 (by omega))]

/-- The place of a float among the numbers, where both zeros have the same. -/
def place (negative : Bool) (m : Nat) : Int := if negative then -m else m

theorem exponentOf_mantissaOf_lt (h : m < n) : exponentOf m < exponentOf n ∨
    exponentOf m = exponentOf n ∧ mantissaOf m < mantissaOf n := by
  unfold exponentOf mantissaOf leastExponent
  split <;> split <;> omega

/-- Magnitudes are compared by their exponents first. -/
theorem compare_magnitudes (m n : Nat) :
    (compare (exponentOf m) (exponentOf n)).then (compare (mantissaOf m) (mantissaOf n)) =
      compare m n := by
  rcases lt_trichotomy m n with h | rfl | h
  · rw [compare_lt_iff_lt.2 h]
    rcases exponentOf_mantissaOf_lt h with he | ⟨he, hm⟩
    · rw [compare_lt_iff_lt.2 he]
      rfl
    · rw [compare_eq_iff_eq.2 he, compare_lt_iff_lt.2 hm]
      rfl
  · simp
  · rw [compare_gt_iff_gt.2 h]
    rcases exponentOf_mantissaOf_lt h with he | ⟨he, hm⟩
    · rw [compare_gt_iff_gt.2 he]
      rfl
    · rw [compare_eq_iff_eq.2 he.symm, compare_gt_iff_gt.2 hm]
      rfl

/-- Floats are compared by their places. -/
theorem compare_ofMagnitude (hm : m ≤ infinityBits) (hn : n ≤ infinityBits) :
    (ofMagnitude s m).toModel.unpack.compare (ofMagnitude t n).toModel.unpack =
      some (compare (place s m) (place t n)) := by
  rw [unpack_ofMagnitude hm, unpack_ofMagnitude hn]
  have hinf : 0 < infinityBits := by decide
  have hcompare : ∀ {o : Ordering} {a b : Int},
      o = .lt ∧ a < b ∨ o = .eq ∧ a = b ∨ o = .gt ∧ b < a → some o = some (compare a b) := by
    rintro o a b (⟨rfl, h⟩ | ⟨rfl, h⟩ | ⟨rfl, h⟩)
    · rw [compare_lt_iff_lt.2 h]
    · rw [compare_eq_iff_eq.2 h]
    · rw [compare_gt_iff_gt.2 h]
  have hnat :
      compare m n = .lt ∧ m < n ∨ compare m n = .eq ∧ m = n ∨ compare m n = .gt ∧ n < m := by
    rcases lt_trichotomy m n with h | h | h
    · exact .inl ⟨compare_lt_iff_lt.2 h, h⟩
    · exact .inr (.inl ⟨compare_eq_iff_eq.2 h, h⟩)
    · exact .inr (.inr ⟨compare_gt_iff_gt.2 h, h⟩)
  have hsign :
      compare Sign.positive Sign.positive = .eq ∧ compare Sign.negative Sign.negative = .eq ∧
      compare Sign.negative Sign.positive = .lt ∧ compare Sign.positive Sign.negative = .gt :=
    ⟨rfl, rfl, rfl, rfl⟩
  split_ifs <;> cases s <;> cases t <;>
    simp only [signOf, UnpackedFloat.compare, place, compare_magnitudes, Bool.false_eq_true,
      if_true, if_false, hsign] <;>
    refine hcompare ?_ <;> grind [Ordering.swap]

/-! ## What a program asks about floats -/

theorem isFinite_ofMagnitude (hm : m ≤ infinityBits) :
    (ofMagnitude s m).isFinite = decide (m ≠ infinityBits) := by
  change (ofMagnitude s m).toModel.unpack.isFinite = _
  rw [unpack_ofMagnitude hm]
  split_ifs with hpos htop
  · simp [UnpackedFloat.isFinite, htop]
  · simp [UnpackedFloat.isFinite, htop]
  · have hne : m ≠ infinityBits := by
      rintro rfl
      exact hpos (by decide)
    simp [UnpackedFloat.isFinite, hne]

theorem beq_ofMagnitude (hm : m ≤ infinityBits) (hn : n ≤ infinityBits) :
    (ofMagnitude s m == ofMagnitude t n) = decide (place s m = place t n) := by
  change ((ofMagnitude s m).toModel.unpack.compare (ofMagnitude t n).toModel.unpack == some .eq) = _
  rw [compare_ofMagnitude hm hn, Bool.eq_iff_iff, beq_iff_eq, Option.some.injEq, decide_eq_true_iff,
    compare_eq_iff_eq]

theorem lt_ofMagnitude_iff (hm : m ≤ infinityBits) (hn : n ≤ infinityBits) :
    ofMagnitude s m < ofMagnitude t n ↔ place s m < place t n := by
  change (decide (((ofMagnitude s m).toModel.unpack.compare (ofMagnitude t n).toModel.unpack ==
    some .lt) = true)) = true ↔ _
  rw [compare_ofMagnitude hm hn, decide_eq_true_iff, beq_iff_eq, Option.some.injEq,
    compare_lt_iff_lt]

theorem le_ofMagnitude_iff (hm : m ≤ infinityBits) (hn : n ≤ infinityBits) :
    ofMagnitude s m ≤ ofMagnitude t n ↔ place s m ≤ place t n := by
  change (decide (((ofMagnitude s m).toModel.unpack.compare (ofMagnitude t n).toModel.unpack).any
    (·.isLE) = true)) = true ↔ _
  rw [compare_ofMagnitude hm hn, decide_eq_true_iff, Option.any_some, Std.isLE_compare]

/-- The rank of a float is its place, where a negative sign comes before zero. -/
theorem rank_ofMagnitude (hm : m ≤ infinityBits) :
    rank (ofMagnitude s m) = if s then -(m : Int) - 1 else m := by
  have hnan : (ofMagnitude s m).isNaN = false := by
    change (ofMagnitude s m).toModel.unpack.isNaN = false
    rw [unpack_ofMagnitude hm]
    split_ifs <;> rfl
  rw [rank, hnan, if_neg Bool.false_ne_true]
  simp only [toBits_ofMagnitude hm]
  rw [infinityBits_eq] at hm
  rw [signed, signBit_eq]
  cases s
  · simp only [Bool.false_eq_true, if_false, zero_add]
    rw [if_pos (by omega)]
  · simp only [if_true]
    rw [if_neg (by omega)]
    omega

/-! ## Finite floats -/

/-- A finite float is given by its sign and its magnitude. -/
theorem exists_ofMagnitude {x : Float} (h : x.isFinite = true) :
    ∃ s m, m ≤ infinityBits ∧ x = ofMagnitude s m := by
  have hlt : x.toBits.toBitVec.toNat < 2 ^ 64 := x.toBits.toBitVec.isLt
  have hinf := infinityBits_eq
  refine ⟨decide (2 ^ 63 ≤ x.toBits.toBitVec.toNat), x.toBits.toBitVec.toNat % 2 ^ 63, ?_, ?_⟩
  · by_contra hgt
    have hexp : @unpackExponent .binary64 x.toBits.toBitVec = -1#_ := by
      refine BitVec.eq_of_toNat_eq ?_
      rw [toNat_unpackExponent]
      change _ = 2047
      omega
    have hmant : ¬@unpackMantissa .binary64 x.toBits.toBitVec = 0#_ := by
      intro hzero
      have hzero' := congrArg BitVec.toNat hzero
      rw [toNat_unpackMantissa] at hzero'
      change _ = 0 at hzero'
      omega
    have hunpack : x.toModel.unpack = .notANumber := by
      change UnpackedFloat.unpack .binary64 x.toBits.toBitVec = _
      rw [UnpackedFloat.unpack, if_pos hexp, if_neg hmant]
    change x.toModel.unpack.isFinite = true at h
    rw [hunpack] at h
    cases h
  · have hsigned : signed (decide (2 ^ 63 ≤ x.toBits.toBitVec.toNat))
        (x.toBits.toBitVec.toNat % 2 ^ 63) = x.toBits.toNat := by
      rw [signed, signBit_eq]
      change _ = x.toBits.toBitVec.toNat
      split <;> simp_all
      omega
    rw [ofMagnitude, hsigned, UInt64.ofNat_toNat, Float.ofBits_toBits]

/-- The place of a float among the numbers. -/
def position (x : Float) : Int := if rank x < 0 then rank x + 1 else rank x

theorem position_ofMagnitude (hm : m ≤ infinityBits) :
    position (ofMagnitude s m) = place s m := by
  rw [position, rank_ofMagnitude hm, place]
  cases s
  · simp
  · simp
    omega

section

variable {x y : Float} (hx : x.isFinite = true) (hy : y.isFinite = true)

include hx hy

theorem lt_iff_position_lt : x < y ↔ position x < position y := by
  obtain ⟨s, m, hm, rfl⟩ := exists_ofMagnitude hx
  obtain ⟨t, n, hn, rfl⟩ := exists_ofMagnitude hy
  rw [lt_ofMagnitude_iff hm hn, position_ofMagnitude hm, position_ofMagnitude hn]

theorem beq_iff_position_eq : (x == y) = true ↔ position x = position y := by
  obtain ⟨s, m, hm, rfl⟩ := exists_ofMagnitude hx
  obtain ⟨t, n, hn, rfl⟩ := exists_ofMagnitude hy
  rw [beq_ofMagnitude hm hn, position_ofMagnitude hm, position_ofMagnitude hn, decide_eq_true_iff]

end

end MarketAlgebra.Binary64
