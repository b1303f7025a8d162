import ImplicitPlot.Proofs.Scalar.OrderedProducts
import ImplicitPlot.Proofs.Scalar.UnitPower

/-!
# The rounded power

The power of a binary64 number to an integral exponent, as it should be: the exact power, rounded to
a nearest number, with the special cases of a zero base. It has all the laws that are asked of a
power (`orderedPowers_roundedPower`), so binary64 arithmetic with this power follows the order. A
zero has no power to a negative exponent by its size alone: the reciprocal of the negative zero is
negative.
-/

namespace ImplicitPlot.Binary64

open Float.Model

open Scalar (Agree IsEven IsFinite IsNaN Lawful)

/-! ## Rounded fractions -/

/-- The number nearest to a fraction, which is given in units of the least positive number. -/
def ofFraction (m n : ℕ) : Float :=
  .ofModel (.pack (UnpackedFloat.roundWithAccuracy .binary64 .positive (m / n) (-1074)
    (UnpackedFloat.accuracyOfFraction (m % n) n)))

theorem not_isNaN_ofFraction (m n : ℕ) : ¬IsNaN (ofFraction m n) := by
  rw [isNaN_iff]
  exact unpack_pack_ne_notANumber (Unpacked.roundWithAccuracy_ne_notANumber _ _ _ _ _)

theorem roundsTo_ofFraction (m : ℕ) {n : ℕ} (hn : 0 < n) :
    RoundsTo ((m : ℚ) / n) (rank (unpacked (ofFraction m n))) := by
  have hvalue : (m : ℚ) / n / 2 ^ ((-1074 : ℤ) + 1074) = (m : ℚ) / n := by norm_num
  obtain ⟨k, hk, hrank⟩ := exists_roundsTo (s := .positive) (le_max_right _ _)
    (hvalue.symm ▸ represents_fraction m hn)
  have hunpacked : rank (unpacked (ofFraction m n)) = k := hrank
  rwa [hunpacked]

theorem ofFraction_nonneg (m : ℕ) {n : ℕ} (hn : 0 < n) : 0 ≤ ofFraction m n :=
  nonneg_of_roundsTo (not_isNaN_ofFraction m n) (roundsTo_ofFraction m hn)

theorem ofFraction_le_ofFraction {m n m' n' : ℕ} (hn : 0 < n) (hn' : 0 < n')
    (h : (m : ℚ) / n ≤ m' / n') : ofFraction m n ≤ ofFraction m' n' :=
  le_of_roundsTo (not_isNaN_ofFraction m n) (not_isNaN_ofFraction m' n')
    (roundsTo_ofFraction m hn) (roundsTo_ofFraction m' hn') h

/-! ## Powers of magnitudes -/

/-- The power of a magnitude, rounded. The magnitude is given in units of the least positive
number. -/
def ofPower (u : ℕ) : ℤ → Float
  | .ofNat n => ofFraction (u ^ n * 2 ^ 1074) (2 ^ (1074 * n))
  | .negSucc n => ofFraction (2 ^ (1074 * (n + 1)) * 2 ^ 1074) (u ^ (n + 1))

variable {u v : ℕ} {n : ℤ}

private theorem ofPower_nonneg (hu : 0 < u) : 0 ≤ ofPower u n := by
  cases n with
  | ofNat n => exact ofFraction_nonneg _ (by positivity)
  | negSucc n => exact ofFraction_nonneg _ (by positivity)

theorem not_isNaN_ofPower (u : ℕ) (n : ℤ) : ¬IsNaN (ofPower u n) := by
  cases n with
  | ofNat n => exact not_isNaN_ofFraction _ _
  | negSucc n => exact not_isNaN_ofFraction _ _

private theorem ofPower_le_ofPower (hn : 0 ≤ n) (huv : u ≤ v) : ofPower u n ≤ ofPower v n := by
  obtain ⟨n, rfl⟩ := Int.eq_ofNat_of_zero_le hn
  refine ofFraction_le_ofFraction (by positivity) (by positivity) ?_
  have hpower : ((u ^ n * 2 ^ 1074 : ℕ) : ℚ) ≤ (v ^ n * 2 ^ 1074 : ℕ) := by
    exact_mod_cast Nat.mul_le_mul_right _ (Nat.pow_le_pow_left huv n)
  exact div_le_div_of_nonneg_right hpower (Nat.cast_nonneg _)

private theorem ofPower_le_ofPower_of_neg (hn : n < 0) (hu : 0 < u) (huv : u ≤ v) :
    ofPower v n ≤ ofPower u n := by
  obtain ⟨n, rfl⟩ := Int.eq_negSucc_of_lt_zero hn
  have hv := hu.trans_le huv
  refine ofFraction_le_ofFraction (by positivity) (by positivity) ?_
  have hpower : ((u ^ (n + 1) : ℕ) : ℚ) ≤ (v ^ (n + 1) : ℕ) := by
    exact_mod_cast Nat.pow_le_pow_left huv (n + 1)
  exact div_le_div_of_nonneg_left (Nat.cast_nonneg _) (by positivity) hpower

/-! ## The rounded power -/

/-- The magnitude of a number, in units of the least positive one. -/
def magnitude (a : Float) : ℕ := (units (unpacked a)).natAbs

/-- The integer that an integral number stands for. -/
def exponent (k : Float) : ℤ := units (unpacked k) / 2 ^ 1074

/-- The power to an integral exponent, rounded. A power of a zero is a zero or infinite, and it
keeps the sign of the zero if the exponent is odd. -/
def roundedPower (a k : Float) : Float :=
  if Agree k 0 then 1
  else if Agree a 0 then
    if 0 < k then if IsEven k then 0 else a
    else if IsEven k then infinity else 1 / a
  else if a < 0 ∧ ¬IsEven k then -ofPower (magnitude a) (exponent k)
  else ofPower (magnitude a) (exponent k)

example : roundedPower (-3) (-1) = -1 / 3 := by decide +kernel

section Laws

variable {a b k : Float}

@[simp] theorem magnitude_neg (a : Float) : magnitude (-a) = magnitude a := by
  rw [magnitude, unpacked_neg, units_neg, Int.natAbs_neg, magnitude]

theorem magnitude_pos (ha : IsFinite a) (h : a < 0 ∨ 0 < a) : 0 < magnitude a := by
  refine Int.natAbs_pos.mpr fun hzero ↦ not_agree_zero h ?_
  constructor
  · exact (le_iff_units_le ha isFinite_zero).mpr hzero.le
  · exact (le_iff_units_le isFinite_zero ha).mpr hzero.ge

theorem magnitude_le_magnitude (ha : IsFinite a) (hb : IsFinite b) (hsign : 0 ≤ a) (h : a ≤ b) :
    magnitude a ≤ magnitude b := by
  have hnonneg := units_nonneg hsign ha
  have hle := (le_iff_units_le ha hb).mp h
  unfold magnitude
  omega

private theorem exponent_nonneg (hk : IsFinite k) (h : 0 ≤ k) : 0 ≤ exponent k :=
  Int.ediv_nonneg (units_nonneg h hk) (by positivity)

private theorem exponent_neg (hk : IsFinite k) (h : k < 0) : exponent k < 0 := by
  refine Int.ediv_neg_of_neg_of_pos ?_ (by positivity)
  by_contra hle
  exact (lt_iff_le_not_le.mp h).2 ((le_iff_units_le isFinite_zero hk).mpr (Int.not_lt.mp hle))

/-! ## The cases of the definition -/

theorem roundedPower_zero (hk : Agree k 0) : roundedPower a k = 1 := if_pos hk

theorem roundedPower_of_pos (hk : ¬Agree k 0) (ha : 0 < a) :
    roundedPower a k = ofPower (magnitude a) (exponent k) := by
  have hneg : ¬(a < 0 ∧ ¬IsEven k) := fun h ↦ (lt_iff_le_not_le.mp ha).2 (lt_iff_le_not_le.mp h.1).1
  rw [roundedPower, if_neg hk, if_neg (not_agree_zero (.inr ha)), if_neg hneg]

theorem roundedPower_of_even (ha : ¬Agree a 0) (hk : ¬Agree k 0) (heven : IsEven k) :
    roundedPower a k = ofPower (magnitude a) (exponent k) := by
  rw [roundedPower, if_neg hk, if_neg ha, if_neg fun h ↦ h.2 heven]

theorem roundedPower_of_odd (ha : a < 0) (hodd : ¬IsEven k) :
    roundedPower a k = -ofPower (magnitude a) (exponent k) := by
  rw [roundedPower, if_neg (mt isEven_of_agree_zero hodd), if_neg (not_agree_zero (.inl ha)),
    if_pos ⟨ha, hodd⟩]

theorem roundedPower_of_zero (ha : Agree a 0) (hk : ¬Agree k 0) :
    roundedPower a k = if 0 < k then if IsEven k then 0 else a
      else if IsEven k then infinity else 1 / a := by
  rw [roundedPower, if_neg hk, if_pos ha]

theorem agree_roundedPower_of_zero (ha : Agree a 0) (hk : 0 < k) : Agree (roundedPower a k) 0 := by
  rw [roundedPower_of_zero ha (not_agree_zero (.inr hk)), if_pos hk]
  split
  · decide +kernel
  · exact ha

/-! ## The laws -/

theorem roundedPower_nonneg (ha : IsFinite a) (hside : 0 ≤ k ∨ 0 < a) (h : 0 ≤ a) :
    0 ≤ roundedPower a k := by
  by_cases hzero : Agree k 0
  · rw [roundedPower_zero hzero]
    decide +kernel
  by_cases hbase : Agree a 0
  · have hpos : 0 < k := by
      have hnonneg := hside.resolve_right fun hpos ↦ not_agree_zero (.inr hpos) hbase
      exact lt_iff_le_not_le.mpr ⟨hnonneg, fun hle ↦ hzero ⟨hle, hnonneg⟩⟩
    exact (agree_roundedPower_of_zero hbase hpos).2
  · have hpos : 0 < a := lt_iff_le_not_le.mpr ⟨h, fun hle ↦ hbase ⟨hle, h⟩⟩
    rw [roundedPower_of_pos hzero hpos]
    exact ofPower_nonneg (magnitude_pos ha (.inr hpos))

private theorem roundedPower_le (ha : IsFinite a) (hb : IsFinite b) (hk : IsFinite k)
    (hsign : 0 ≤ k)
    (h : 0 ≤ a) (hab : a ≤ b) : roundedPower a k ≤ roundedPower b k := by
  by_cases hzero : Agree k 0
  · rw [roundedPower_zero hzero, roundedPower_zero hzero]
    decide +kernel
  by_cases hbase : Agree a 0
  · have hpos : 0 < k := lt_iff_le_not_le.mpr ⟨hsign, fun hle ↦ hzero ⟨hle, hsign⟩⟩
    exact le_trans (agree_roundedPower_of_zero hbase hpos).1
      (roundedPower_nonneg hb (.inl hsign) (le_trans h hab))
  · have hpos : 0 < a := lt_iff_le_not_le.mpr ⟨h, fun hle ↦ hbase ⟨hle, h⟩⟩
    rw [roundedPower_of_pos hzero hpos,
      roundedPower_of_pos hzero (Scalar.lt_of_lt_of_le hpos hab)]
    exact ofPower_le_ofPower (exponent_nonneg hk hsign) (magnitude_le_magnitude ha hb h hab)

private theorem roundedPower_le_of_neg (ha : IsFinite a) (hb : IsFinite b) (hk : IsFinite k)
    (hsign : k < 0) (h : 0 < a) (hab : a ≤ b) : roundedPower b k ≤ roundedPower a k := by
  have hzero := not_agree_zero (.inl hsign)
  rw [roundedPower_of_pos hzero h, roundedPower_of_pos hzero (Scalar.lt_of_lt_of_le h hab)]
  exact ofPower_le_ofPower_of_neg (exponent_neg hk hsign) (magnitude_pos ha (.inr h))
    (magnitude_le_magnitude ha hb (lt_iff_le_not_le.mp h).1 hab)

theorem neg_or_pos (ha : IsFinite a) (h : ¬Agree a 0) : a < 0 ∨ 0 < a := by
  rcases Scalar.nonneg_or_nonpos ha with hle | hle
  · exact .inr (lt_iff_le_not_le.mpr ⟨hle, fun hge ↦ h ⟨hge, hle⟩⟩)
  · exact .inl (lt_iff_le_not_le.mpr ⟨hle, fun hge ↦ h ⟨hle, hge⟩⟩)

theorem agree_zero_neg_iff : Agree (-a) 0 ↔ Agree a 0 := by
  rw [agree_zero_iff, agree_zero_iff, unpacked_neg]
  cases unpacked a with
  | zero s => exact iff_of_true ⟨-s, rfl⟩ ⟨s, rfl⟩
  | notANumber | infinity | finite => exact iff_of_false (by simp [UnpackedFloat.neg]) (by simp)

private theorem roundedPower_neg_of_even (heven : IsEven k) :
    Agree (roundedPower (-a) k) (roundedPower a k) := by
  by_cases hzero : Agree k 0
  · rw [roundedPower_zero hzero, roundedPower_zero hzero]
    decide +kernel
  by_cases hbase : Agree a 0
  · rw [roundedPower_of_zero (agree_zero_neg_iff.mpr hbase) hzero, roundedPower_of_zero hbase hzero,
      if_pos heven, if_pos heven, if_pos heven]
    split <;> decide +kernel
  · rw [roundedPower_of_even (mt agree_zero_neg_iff.mp hbase) hzero heven,
      roundedPower_of_even hbase hzero heven, magnitude_neg]
    exact Scalar.agree_self (not_isNaN_ofPower _ _)

/-- The power of a negative zero is a zero or infinite, with the sign of the zero. -/
theorem roundedPower_neg_zero_of_odd (ha : Agree a 0) (hodd : ¬IsEven k) :
    Agree (roundedPower (-a) k) (-roundedPower a k) := by
  have hzero := mt isEven_of_agree_zero hodd
  rw [roundedPower_of_zero (agree_zero_neg_iff.mpr ha) hzero, roundedPower_of_zero ha hzero,
    if_neg hodd, if_neg hodd, if_neg hodd]
  rcases eq_zero_or_neg_zero ha with rfl | rfl
  · split <;> decide +kernel
  · split <;> decide +kernel

private theorem roundedPower_neg_of_odd (ha : IsFinite a) (hodd : ¬IsEven k) :
    Agree (roundedPower (-a) k) (-roundedPower a k) := by
  by_cases hbase : Agree a 0
  · exact roundedPower_neg_zero_of_odd hbase hodd
  have hzero := mt isEven_of_agree_zero hodd
  rcases neg_or_pos ha hbase with hneg | hpos
  · rw [roundedPower_of_pos hzero (neg_pos_iff.mpr hneg), roundedPower_of_odd hneg hodd, neg_neg,
      magnitude_neg]
    exact Scalar.agree_self (not_isNaN_ofPower _ _)
  · rw [roundedPower_of_odd (neg_neg_iff.mpr hpos) hodd, roundedPower_of_pos hzero hpos,
      magnitude_neg]
    exact Scalar.agree_self (mt Scalar.isNaN_neg_iff.mp (not_isNaN_ofPower _ _))

/-- **The rounded power follows the order.** -/
theorem orderedPowers_roundedPower : @Scalar.OrderedPowers Float (arithmetic roundedPower) :=
  letI := arithmetic roundedPower
  { pow_nonneg := fun ha _ _ hside h ↦ roundedPower_nonneg ha hside h
    pow_le_pow := fun ha hb hk _ hsign h hab ↦ roundedPower_le ha hb hk hsign h hab
    pow_le_pow_of_neg := fun ha hb hk _ hsign h hab ↦ roundedPower_le_of_neg ha hb hk hsign h hab
    pow_neg_of_even := fun _ _ _ heven ↦ roundedPower_neg_of_even heven
    pow_neg_of_odd := fun ha _ _ hodd ↦ roundedPower_neg_of_odd ha hodd }

/-- Binary64 arithmetic with the rounded power follows the order. -/
theorem orderPreserving_roundedPower :
    @Scalar.OrderPreserving Float (arithmetic roundedPower) :=
  orderPreserving orderedPowers_roundedPower

end Laws

end ImplicitPlot.Binary64
