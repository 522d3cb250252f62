import MarketAlgebra.Proofs.Number.Apart
import MarketAlgebra.Proofs.Number.Packing

/-!
# Float arithmetic

Sums of finite floats are rounded correctly: the sum of two floats other than zero is the float
nearest to the sum of their values (`add_finite`).  Rounding keeps the order, and the magnitude of a
product does not depend on the signs (`mul_ofMagnitude`), so the approximations of `x - y √z` and
`x + y √z` are in this order, whatever the roundings are, unless that of `x` is infinite
(`rank_surd_le`).
-/

namespace MarketAlgebra.Binary64

open Float.Model Float.Model.UnpackedFloat

variable {s t : Bool} {m n k : ℕ} {e : ℤ}

/-! ## Sums -/

/-- The value of a finite float. -/
def valueOf (negative : Bool) (m : ℕ) : ℚ :=
  (signOf negative).apply (mantissaOf m) * 2 ^ exponentOf m

theorem decreaseExponent_value (s : Bool) {q : ℤ} (h : q ≤ e) :
    (((signOf s).apply (decreaseExponent k e q).1 : ℤ) : ℚ) * 2 ^ q =
      ((signOf s).apply k : ℤ) * 2 ^ e := by
  have hshift : ((k <<< (e - q).toNat : ℕ) : ℚ) * 2 ^ q = k * 2 ^ e := by
    rw [Nat.shiftLeft_eq, Nat.cast_mul, Nat.cast_pow, Nat.cast_ofNat, ← zpow_natCast, mul_assoc,
      ← zpow_add₀ two_ne_zero]
    congr 2
    omega
  rw [decreaseExponent]
  cases s with
  | false => exact hshift
  | true =>
    change ((-((k <<< (e - q).toNat : ℕ) : ℤ) : ℤ) : ℚ) * 2 ^ q = ((-(k : ℤ) : ℤ) : ℚ) * 2 ^ e
    rw [Int.cast_neg, Int.cast_neg, Int.cast_natCast, Int.cast_natCast, neg_mul, neg_mul, hshift]

theorem unpack_zero (s : Bool) : (ofMagnitude s 0).toModel.unpack = .zero (signOf s) :=
  unpack_ofMagnitude (Nat.zero_le _)

theorem unpack_infinity (s : Bool) :
    (ofMagnitude s infinityBits).toModel.unpack = .infinity (signOf s) := by
  have hpos : 0 < infinityBits := by decide
  rw [unpack_ofMagnitude le_rfl, dif_pos hpos, if_pos rfl]

theorem unpack_finite (hm : 0 < m) (hm' : m < infinityBits) : (ofMagnitude s m).toModel.unpack =
    .finite (signOf s) (mantissaOf m) (exponentOf m) (mantissaOf_pos hm) := by
  rw [unpack_ofMagnitude hm'.le, dif_pos hm, if_neg hm'.ne]

theorem add_eq (x y : Float) : x + y =
    ofUnpacked (UnpackedFloat.add .binary64 x.toModel.unpack y.toModel.unpack) := rfl

/-- A sum of floats is the float nearest to the sum of their values. -/
theorem add_finite (hm : 0 < m) (hm' : m < infinityBits) (hn : 0 < n) (hn' : n < infinityBits) :
    ofMagnitude s m + ofMagnitude t n = ofRat (valueOf s m + valueOf t n) := by
  rw [add_eq, unpack_finite hm hm', unpack_finite hn hn', UnpackedFloat.add]
  dsimp only
  rw [ofUnpacked_normalize, Int.cast_add, add_mul, decreaseExponent_value s (min_le_left _ _),
    decreaseExponent_value t (min_le_right _ _), valueOf, valueOf]

theorem finite_add_zero (hm : 0 < m) (hm' : m < infinityBits) :
    ofMagnitude s m + ofMagnitude t 0 = ofMagnitude s m := by
  rw [add_eq, unpack_zero, unpack_finite hm hm']
  exact (congrArg ofUnpacked (unpack_finite hm hm').symm).trans (ofUnpacked_unpack _)

theorem zero_add_finite (hn : 0 < n) (hn' : n < infinityBits) :
    ofMagnitude s 0 + ofMagnitude t n = ofMagnitude t n := by
  rw [add_eq, unpack_zero, unpack_finite hn hn']
  exact (congrArg ofUnpacked (unpack_finite hn hn').symm).trans (ofUnpacked_unpack _)

theorem zero_add_zero (s t : Bool) :
    ofMagnitude s 0 + ofMagnitude t 0 = ofMagnitude (s && t) 0 := by
  rw [add_eq, unpack_zero, unpack_zero, ← ofUnpacked_zero]
  cases s <;> cases t <;> rfl

theorem add_infinity (hm : m < infinityBits) :
    ofMagnitude s m + ofMagnitude t infinityBits = ofMagnitude t infinityBits := by
  rw [add_eq, unpack_infinity, ← ofUnpacked_infinity]
  rcases Nat.eq_zero_or_pos m with rfl | hpos
  · rw [unpack_zero]
    rfl
  · rw [unpack_finite hpos hm]
    rfl

theorem rank_le_of_sign (hm : m ≤ infinityBits) :
    rank (ofMagnitude true m) ≤ rank (ofMagnitude false m) := by
  rw [rank_ofMagnitude hm, rank_ofMagnitude hm, if_pos rfl, if_neg Bool.false_ne_true]
  omega

/-- Subtracting a magnitude does not give more than adding it. -/
theorem rank_add_le (s : Bool) (hm : m < infinityBits) (hn : n ≤ infinityBits) :
    rank (ofMagnitude s m + ofMagnitude true n) ≤ rank (ofMagnitude s m + ofMagnitude false n) := by
  rcases hn.lt_or_eq with hlt | rfl
  · rcases Nat.eq_zero_or_pos m with rfl | hm0 <;> rcases Nat.eq_zero_or_pos n with rfl | hn0
    · rw [zero_add_zero, zero_add_zero]
      cases s with
      | false => exact le_rfl
      | true => exact rank_le_of_sign (Nat.zero_le _)
    · rw [zero_add_finite hn0 hlt, zero_add_finite hn0 hlt]
      exact rank_le_of_sign hn
    · rw [finite_add_zero hm0 hm, finite_add_zero hm0 hm]
    · have hvalue : valueOf true n ≤ valueOf false n := by
        have htwo : (0 : ℚ) < 2 ^ exponentOf n := by positivity
        have hsign : (signOf true).apply (mantissaOf n) ≤ (signOf false).apply (mantissaOf n) := by
          change -(mantissaOf n : ℤ) ≤ mantissaOf n
          omega
        exact mul_le_mul_of_nonneg_right (Int.cast_le.2 hsign) htwo.le
      rw [add_finite hm0 hm hn0 hlt, add_finite hm0 hm hn0 hlt]
      exact rank_ofRat_mono (add_le_add le_rfl hvalue)
  · rw [add_infinity hm, add_infinity hm]
    exact rank_le_of_sign le_rfl

/-! ## Products and square roots -/

theorem mul_eq (x y : Float) : x * y =
    ofUnpacked (UnpackedFloat.mul .binary64 x.toModel.unpack y.toModel.unpack) := rfl

theorem signOf_mul_false (s : Bool) : signOf s * signOf false = signOf s := by cases s <;> rfl

/-- The magnitude of a product does not depend on the signs, or it is undefined for both. -/
theorem mul_ofMagnitude (hm : m ≤ infinityBits) (hn : n ≤ infinityBits) :
    (∃ l ≤ infinityBits, ∀ s, ofMagnitude s m * ofMagnitude false n = ofMagnitude s l) ∨
      ∀ s, ofMagnitude s m * ofMagnitude false n = ofUnpacked .notANumber := by
  have infinite : ∃ l ≤ infinityBits, ∀ s, ofUnpacked (.infinity (signOf s)) = ofMagnitude s l :=
    ⟨infinityBits, le_rfl, ofUnpacked_infinity⟩
  have zero : ∃ l ≤ infinityBits, ∀ s, ofUnpacked (.zero (signOf s)) = ofMagnitude s l :=
    ⟨0, Nat.zero_le _, ofUnpacked_zero⟩
  simp only [mul_eq, unpack_ofMagnitude hm, unpack_ofMagnitude hn]
  split_ifs <;> simp only [UnpackedFloat.mul, signOf_mul_false]
  · exact .inl infinite
  · exact .inl infinite
  · exact .inr fun _ => trivial
  · exact .inl infinite
  · exact .inl (exists_roundWithAccuracy _ _ _)
  · exact .inl zero
  · exact .inr fun _ => trivial
  · exact .inl zero
  · exact .inl zero

/-- A square root of a number that is not negative is not negative. -/
theorem sqrt_ofMagnitude (hm : m ≤ infinityBits) :
    ∃ l ≤ infinityBits, (ofMagnitude false m).sqrt = ofMagnitude false l := by
  change ∃ l ≤ infinityBits, ofUnpacked (UnpackedFloat.sqrt .binary64
    (ofMagnitude false m).toModel.unpack) = _
  rw [unpack_ofMagnitude hm]
  split_ifs
  · exact ⟨infinityBits, le_rfl, ofUnpacked_infinity false⟩
  · obtain ⟨l, hl, hround⟩ := exists_roundWithAccuracy _ _ _
    exact ⟨l, hl, hround false⟩
  · exact ⟨0, Nat.zero_le _, ofUnpacked_zero false⟩

/-- The approximations of `x - y √z` and `x + y √z` are in order, unless that of `x` is infinite. -/
theorem rank_surd_le {x y z : ℚ} (hx : (ofRat x).isFinite = true) (hy : 0 ≤ y) (hz : 0 ≤ z) :
    rank (ofRat x + ofRat (-y) * (ofRat z).sqrt) ≤ rank (ofRat x + ofRat y * (ofRat z).sqrt) := by
  rcases hy.eq_or_lt with rfl | hpos
  · rw [neg_zero]
  have hneg : ofRat (-y) = ofMagnitude true (magnitude y) := by
    rw [ofRat_eq, magnitude_neg, decide_eq_true (neg_neg_of_pos hpos)]
  have hnonneg : ∀ {x : ℚ}, 0 ≤ x → ofRat x = ofMagnitude false (magnitude x) := by
    intro x hx
    rw [ofRat_eq, decide_eq_false hx.not_gt]
  obtain ⟨l, hl, hsqrt⟩ := sqrt_ofMagnitude (magnitude_le_infinityBits z)
  rw [hneg, hnonneg hy, hnonneg hz, hsqrt]
  rcases mul_ofMagnitude (magnitude_le_infinityBits y) hl with ⟨n, hn, hproduct⟩ | hproduct
  · rw [ofRat_eq, isFinite_ofMagnitude (magnitude_le_infinityBits x), decide_eq_true_iff] at hx
    rw [hproduct, hproduct, ofRat_eq x]
    exact rank_add_le _ ((magnitude_le_infinityBits x).lt_of_ne hx) hn
  · rw [hproduct, hproduct]

end MarketAlgebra.Binary64
