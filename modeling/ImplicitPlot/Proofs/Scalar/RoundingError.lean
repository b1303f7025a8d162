import ImplicitPlot.Proofs.Scalar.Magnitudes

/-!
# How far a rounded number is from its exact value

A result that is finite is near its exact value: within a share `2⁻⁵³` of the value, and half a unit
of the least positive number where the value is not a whole number of units (`abs_units_sub_le`,
`abs_units_sub_intCast_le`). Both come from the mantissa and the exponent of the result, which the
rank tells (`exists_units_eq_of_roundsTo`). A value is rounded to infinity exactly if it is half a
step or more beyond the greatest number (`overflowBound`), which decides whether a sum is finite
(`isFinite_add_iff`).
-/

namespace ImplicitPlot.Binary64

open Float.Model

open UnpackedFloat (Sign)

open Scalar (IsFinite IsNaN Lawful)

variable {a b s : Float} {u : UnpackedFloat} {x : ℚ} {j r : ℕ} {n z : ℤ}

/-! ## Sums and differences -/

theorem signedRoundsTo_sum (ha : IsFinite a) (hb : IsFinite b) :
    SignedRoundsTo (units (unpacked a) + units (unpacked b)) (rank (unpacked (a + b))) :=
  signedRoundsTo_add (isFinite_iff.mp ha) (isFinite_iff.mp hb) (fits_unpacked a) (fits_unpacked b)

/-- A difference is the exact one, rounded. -/
theorem signedRoundsTo_difference (ha : IsFinite a) (hb : IsFinite b) :
    SignedRoundsTo (units (unpacked a) - units (unpacked b)) (rank (unpacked (a - b))) := by
  have hsum := signedRoundsTo_sum ha (isFinite_neg_of hb)
  rwa [unpacked_neg, units_neg, ← Int.sub_eq_add_neg, ← sub_eq_add_neg] at hsum

theorem SignedRoundsTo.roundsTo (h : SignedRoundsTo z n) (hz : 0 ≤ z) : RoundsTo z n :=
  h.value.roundsTo (by exact_mod_cast hz)

/-! ## The value of a rank -/

/-- The exponent and the mantissa are read off the rank. The mantissa may have one bit too many, and
is a power of two then. -/
theorem units_eq_of_rank_eq (hu : u.isFinite = true) (hfits : Fits u) (hr : r ≤ 2 ^ 53)
    (hnormal : 0 < j → 2 ^ 52 ≤ r) (h : rank u = (j * 2 ^ 52 + r : ℕ)) : units u = r * 2 ^ j := by
  match u, hu, hfits, h with
  | .zero s, _, _, h =>
    rw [rank] at h
    obtain ⟨rfl, rfl⟩ : j = 0 ∧ r = 0 := by omega
    rfl
  | .finite s m e hm, _, hfits, h =>
    obtain ⟨rfl, -, -⟩ | ⟨-, -, hneg⟩ := rank_finite hfits
    · obtain ⟨hlower, -, hbits, hnormal'⟩ := hfits
      obtain ⟨i, hi⟩ : ∃ i : ℕ, e + 1074 = i := ⟨(e + 1074).toNat, by omega⟩
      rw [rank, Sign.apply, hi] at h
      rw [units, Sign.apply, hi, Int.toNat_natCast]
      -- The exponents are equal, unless the mantissa has carried over.
      obtain ⟨rfl, rfl⟩ | ⟨rfl, rfl, rfl⟩ :
          i = j ∧ m = r ∨ i = j + 1 ∧ m = 2 ^ 52 ∧ r = 2 ^ 53 := by omega
      · push_cast
        rfl
      · push_cast
        ring
    · omega

theorem exists_units_eq_of_roundsTo (ha : IsFinite a) (h : RoundsTo x (rank (unpacked a))) :
    ∃ j r : ℕ, units (unpacked a) = r * 2 ^ j ∧ (0 < j → 2 ^ (52 + j) ≤ x) ∧
      IsNearestEven r (x / 2 ^ j) := by
  obtain ⟨j, r, hupper, hlower, hnear, hrank⟩ := h
  have hfinite := isFinite_iff.mp ha
  have hlt := (rank_lt_of_isFinite hfinite (fits_unpacked a)).2
  refine ⟨j, r, ?_, hlower, hnear⟩
  exact units_eq_of_rank_eq hfinite (fits_unpacked a) (hnear.le_of_lt hupper)
    (fun hpos ↦ hnear.ge_of_le (hlower hpos)) (by omega)

/-! ## Errors -/

theorem abs_sub_le_half_step (h : IsNearestEven r (x / 2 ^ j)) :
    |(r * 2 ^ j : ℚ) - x| ≤ 2 ^ j / 2 := by
  have hstep : (r * 2 ^ j : ℚ) - x = (r - x / 2 ^ j) * 2 ^ j := by
    rw [sub_mul, div_mul_cancel₀ _ (by positivity)]
  rw [hstep, abs_mul, abs_of_pos (by positivity : (0 : ℚ) < 2 ^ j)]
  calc |(r : ℚ) - x / 2 ^ j| * 2 ^ j ≤ 1 / 2 * 2 ^ j :=
        mul_le_mul_of_nonneg_right h.near (by positivity)
    _ = 2 ^ j / 2 := by ring

theorem half_step_le (h : 2 ^ (52 + j) ≤ x) : (2 : ℚ) ^ j / 2 ≤ x / 2 ^ 53 := by
  rw [div_le_div_iff₀ (by norm_num) (by norm_num)]
  calc (2 : ℚ) ^ j * 2 ^ 53 = 2 ^ (52 + j) * 2 := by ring
    _ ≤ x * 2 := mul_le_mul_of_nonneg_right h (by norm_num)

/-- **The rounding error.** Half a unit is needed for values that have few bits or none. -/
theorem abs_units_sub_le (hx : 0 ≤ x) (ha : IsFinite a) (h : RoundsTo x (rank (unpacked a))) :
    |(units (unpacked a) : ℚ) - x| ≤ x / 2 ^ 53 + 1 / 2 := by
  obtain ⟨j, r, hunits, hlower, hnear⟩ := exists_units_eq_of_roundsTo ha h
  have herror := abs_sub_le_half_step hnear
  have hshare : 0 ≤ x / 2 ^ 53 := by positivity
  rw [hunits]
  push_cast
  rcases Nat.eq_zero_or_pos j with rfl | hpos
  · linarith
  · have hstep := half_step_le (hlower hpos)
    linarith

theorem abs_units_sub_intCast_le (ha : IsFinite a) (h : RoundsTo z (rank (unpacked a))) :
    |(units (unpacked a) : ℚ) - z| ≤ z / 2 ^ 53 := by
  obtain ⟨j, r, hunits, hlower, hnear⟩ := exists_units_eq_of_roundsTo ha h
  rw [hunits]
  push_cast
  rcases Nat.eq_zero_or_pos j with rfl | hpos
  · -- Two whole numbers that are half of one apart are the same.
    have hnear := hnear.near
    rw [pow_zero, div_one] at hnear
    have hlt : |(r : ℤ) - z| < 1 := by exact_mod_cast hnear.trans_lt (by norm_num : (1 / 2 : ℚ) < 1)
    obtain rfl : z = r := (sub_eq_zero.mp (Int.abs_lt_one_iff.mp hlt)).symm
    rw [pow_zero, mul_one, Int.cast_natCast, sub_self, abs_zero]
    positivity
  · exact (abs_sub_le_half_step hnear).trans (half_step_le (hlower hpos))

/-! ## Values that have a finite number -/

/-- The distance of the greatest numbers from each other, in units of the least positive number. -/
def greatestStep : ℚ := 2 ^ 2045

/-- The greatest number, in the same units. -/
def greatest : ℚ := (2 ^ 53 - 1) * greatestStep

/-- The least value, in the same units, that is rounded to infinity: it is half a step beyond the
greatest number. -/
def overflowBound : ℚ := greatest + greatestStep / 2

theorem le_greatestStep : 2 ^ 64 ≤ greatestStep := pow_le_pow_right₀ (by norm_num) (by norm_num)

theorem greatestStep_pos : 0 < greatestStep := lt_of_lt_of_le (by norm_num) le_greatestStep

theorem overflowBound_eq : overflowBound = (2 ^ 53 - 1 / 2) * greatestStep := by
  rw [overflowBound, greatest]
  ring

theorem overflowBound_lt : overflowBound < 2 ^ 2098 := by
  rw [overflowBound_eq, show (2 : ℚ) ^ 2098 = 2 ^ 53 * greatestStep from pow_add 2 53 2045]
  exact mul_lt_mul_of_pos_right (by norm_num) greatestStep_pos

theorem IsNearestEven.lt {m : ℕ} (h : IsNearestEven r x) (hx : x < m - 1 / 2) : r < m := by
  have hupper := (abs_le.mp h.near).2
  have hlt : (r : ℚ) < m := by linarith
  exact_mod_cast hlt

/-- **No overflow.** With the greatest exponent, the mantissa is less than the next power of two. -/
theorem RoundsTo.lt_of_lt (h : RoundsTo x n) (hx : x < overflowBound) : n < 2047 * 2 ^ 52 := by
  obtain ⟨j, r, hupper, hlower, hnear, rfl⟩ := h
  have hr := hnear.le_of_lt hupper
  rcases lt_trichotomy j 2045 with hj | hj | hj
  · omega
  · have hlt : r < 2 ^ 53 := by
      refine hnear.lt ?_
      rw [hj, Nat.cast_pow, Nat.cast_ofNat]
      rw [overflowBound_eq] at hx
      exact (div_lt_iff₀ greatestStep_pos).mpr hx
    omega
  · have hle : (2 : ℚ) ^ 2098 ≤ 2 ^ (52 + j) := pow_le_pow_right₀ (by norm_num) (by omega)
    exact absurd ((hlower (by omega)).trans_lt hx) (not_lt.mpr (overflowBound_lt.le.trans hle))

/-- **Overflow.** With the greatest exponent, the mantissa is rounded up to the next power of
two. -/
theorem RoundsTo.eq_of_le (h : RoundsTo x n) (hx : overflowBound ≤ x) : n = 2047 * 2 ^ 52 := by
  obtain ⟨j, r, hupper, hlower, hnear, rfl⟩ := h
  rcases lt_trichotomy j 2045 with hj | rfl | hj
  · have hpower : (2 : ℚ) ^ (53 + j) ≤ 2 ^ 2097 := pow_le_pow_right₀ (by norm_num) (by omega)
    have hbound : (2 : ℚ) ^ 2097 ≤ overflowBound := by
      rw [overflowBound_eq, show (2 : ℚ) ^ 2097 = 2 ^ 52 * greatestStep from pow_add 2 52 2045]
      exact mul_le_mul_of_nonneg_right (by norm_num) greatestStep_pos.le
    exact absurd (hupper.trans_le (hpower.trans hbound)) (not_lt.mpr hx)
  · have hmantissa : (2 : ℚ) ^ 53 - 1 / 2 ≤ x / 2 ^ 2045 := by
      rw [overflowBound_eq] at hx
      exact (le_div_iff₀ greatestStep_pos).mpr hx
    have hnearest : IsNearestEven (2 ^ 53) ((2 : ℚ) ^ 53 - 1 / 2) := by
      constructor <;> norm_num
    have hr := hnearest.le hnear hmantissa
    omega
  · have hr := hnear.ge_of_le (hlower (by omega))
    omega

theorem isFinite_of_roundsTo (hnumber : ¬IsNaN a) (h : RoundsTo x (rank (unpacked a)))
    (hx : x < overflowBound) : IsFinite a := by
  have hnonneg := h.nonneg
  exact isFinite_iff.mpr
    (isFinite_of_rank (mt isNaN_iff.mpr hnumber) (by omega) (h.lt_of_lt hx))

theorem isFinite_of_signedRoundsTo (hnumber : ¬IsNaN a)
    (h : SignedRoundsTo z (rank (unpacked a))) (hz : |(z : ℚ)| < overflowBound) : IsFinite a := by
  obtain ⟨hneg, hpos⟩ := abs_lt.mp hz
  rcases h with ⟨-, h⟩ | ⟨-, h⟩
  · exact isFinite_of_roundsTo hnumber h hpos
  · have hnonneg := h.nonneg
    have hlt := h.lt_of_lt (by linarith)
    exact isFinite_iff.mpr (isFinite_of_rank (mt isNaN_iff.mpr hnumber) (by omega) (by omega))

theorem abs_units_le (ha : IsFinite a) : |(units (unpacked a) : ℚ)| ≤ greatest := by
  have hfits := fits_unpacked a
  rw [isFinite_iff] at ha
  rw [greatest]
  cases hu : unpacked a with
  | notANumber | infinity =>
    rw [hu] at ha
    cases ha
  | zero s =>
    have hzero : units (.zero s) = 0 := rfl
    rw [hzero, Int.cast_zero, abs_zero]
    exact mul_nonneg (by norm_num) greatestStep_pos.le
  | finite s m e hm =>
    rw [hu] at hfits
    obtain ⟨hlower, hupper, hbits, -⟩ := hfits
    have hmantissa : (m : ℚ) ≤ 2 ^ 53 - 1 := by
      have hle : (m : ℚ) ≤ (2 ^ 53 - 1 : ℕ) := by exact_mod_cast Nat.le_sub_one_of_lt hbits
      exact hle.trans (by norm_num)
    have hexponent : (2 : ℚ) ^ (e + 1074).toNat ≤ greatestStep :=
      pow_le_pow_right₀ (by norm_num) (by omega)
    have habs : |(units (.finite s m e hm) : ℚ)| = m * 2 ^ (e + 1074).toNat := by
      cases s <;> simp [units, Sign.apply]
    rw [habs]
    exact mul_le_mul hmantissa hexponent (by positivity) (by norm_num)

/-! ## Sums and differences with a distance -/

theorem rank_eq_of_not_isFinite (hb : 0 ≤ b) (hnumber : ¬IsNaN b) (hinf : ¬IsFinite b) :
    rank (unpacked b) = 2047 * 2 ^ 52 := by
  have hnonneg := rank_nonneg hb
  have hle := (rank_bounds (fits_unpacked b)).2
  by_contra hne
  exact hinf (isFinite_iff.mpr
    (isFinite_of_rank (mt isNaN_iff.mpr hnumber) (by omega) (by omega)))

theorem le_add_of_units (hs : IsFinite s) (ha : IsFinite a) (hb : 0 ≤ b) (hnumber : ¬IsNaN b)
    (h : IsFinite b → units (unpacked s) ≤ units (unpacked a) + units (unpacked b)) :
    s ≤ a + b := by
  have hsum := mt isNaN_iff.mpr (not_isNaN_add ha hnumber)
  refine le_iff.mpr ⟨⟨ne_notANumber_of_isFinite (isFinite_iff.mp hs), hsum⟩, ?_⟩
  by_cases hfinite : IsFinite b
  · exact (signedRoundsTo_units (isFinite_iff.mp hs) (fits_unpacked s)).le
      (signedRoundsTo_sum ha hfinite) (h hfinite)
  · rw [rank_add_of_infinity (s := .positive) (.inr (rank_eq_of_not_isFinite hb hnumber hfinite))
      hsum]
    exact (rank_bounds (fits_unpacked s)).2

/-- A number that the exact difference reaches from above is reached by the rounded one. -/
theorem sub_le_of_units (hs : IsFinite s) (ha : IsFinite a) (hb : 0 ≤ b) (hnumber : ¬IsNaN b)
    (h : IsFinite b → units (unpacked a) - units (unpacked b) ≤ units (unpacked s)) :
    a - b ≤ s := by
  have hdifference := mt isNaN_iff.mpr (not_isNaN_sub ha hnumber)
  refine le_iff.mpr ⟨⟨hdifference, ne_notANumber_of_isFinite (isFinite_iff.mp hs)⟩, ?_⟩
  by_cases hfinite : IsFinite b
  · exact (signedRoundsTo_difference ha hfinite).le
      (signedRoundsTo_units (isFinite_iff.mp hs) (fits_unpacked s)) (h hfinite)
  · have hrank : rank (unpacked (-b)) = -(2047 * 2 ^ 52) := by
      rw [unpacked_neg, rank_neg, rank_eq_of_not_isFinite hb hnumber hfinite]
    rw [sub_eq_add_neg] at hdifference ⊢
    rw [rank_add_of_infinity (s := .negative) (.inr hrank) hdifference]
    exact (rank_bounds (fits_unpacked s)).1

/-! ## Finite sums and differences -/

theorem abs_units_lt (ha : IsFinite a) : |(units (unpacked a) : ℚ)| < overflowBound := by
  have hstep := greatestStep_pos
  calc |(units (unpacked a) : ℚ)| ≤ greatest := abs_units_le ha
    _ < overflowBound := lt_add_of_pos_right _ (by linarith)

theorem abs_lt_of_signedRoundsTo (hs : IsFinite s) (h : SignedRoundsTo z (rank (unpacked s))) :
    |(z : ℚ)| < overflowBound := by
  have hrank := rank_lt_of_isFinite (isFinite_iff.mp hs) (fits_unpacked s)
  have hlt {x : ℚ} {n : ℤ} (h : RoundsTo x n) (hn : n < 2047 * 2 ^ 52) : x < overflowBound :=
    lt_of_not_ge fun hle ↦ hn.ne (h.eq_of_le hle)
  have hpos : 0 < overflowBound := (abs_nonneg _).trans_lt (abs_units_lt hs)
  rcases h with ⟨hz, h⟩ | ⟨hz, h⟩
  · have hz' : (0 : ℚ) ≤ z := by exact_mod_cast hz
    exact abs_lt.mpr ⟨by linarith, hlt h hrank.2⟩
  · have hz' : (z : ℚ) ≤ 0 := by exact_mod_cast hz
    have hlt' := hlt h (by omega)
    exact abs_lt.mpr ⟨by linarith, by linarith⟩

/-- **When a sum is finite.** -/
theorem isFinite_add_iff (ha : IsFinite a) (hb : IsFinite b) :
    IsFinite (a + b) ↔ |(units (unpacked a) : ℚ) + units (unpacked b)| < overflowBound := by
  have hsum := signedRoundsTo_sum ha hb
  rw [← Int.cast_add]
  constructor
  · intro h
    exact abs_lt_of_signedRoundsTo h hsum
  · intro h
    exact isFinite_of_signedRoundsTo (not_isNaN_add ha (Lawful.not_isNaN_of_isFinite hb)) hsum h

theorem isFinite_sub_iff (ha : IsFinite a) (hb : IsFinite b) :
    IsFinite (a - b) ↔ |(units (unpacked a) : ℚ) - units (unpacked b)| < overflowBound := by
  rw [sub_eq_add_neg, isFinite_add_iff ha (isFinite_neg_of hb), unpacked_neg, units_neg,
    Int.cast_neg, ← Rat.sub_eq_add_neg]

theorem isFinite_add_of_units (ha : IsFinite a) (hb : 0 ≤ b) (hfinite : IsFinite b)
    (h : (units (unpacked a) : ℚ) + units (unpacked b) < overflowBound) : IsFinite (a + b) := by
  have hnonneg : (0 : ℚ) ≤ units (unpacked b) := by exact_mod_cast units_nonneg hb hfinite
  have hlower := (abs_lt.mp (abs_units_lt ha)).1
  exact (isFinite_add_iff ha hfinite).mpr (abs_lt.mpr ⟨by linarith, h⟩)

theorem isFinite_sub_of_units (ha : IsFinite a) (hb : 0 ≤ b) (hfinite : IsFinite b)
    (h : -overflowBound < (units (unpacked a) : ℚ) - units (unpacked b)) : IsFinite (a - b) := by
  have hnonneg : (0 : ℚ) ≤ units (unpacked b) := by exact_mod_cast units_nonneg hb hfinite
  have hupper := (abs_lt.mp (abs_units_lt ha)).2
  exact (isFinite_sub_iff ha hfinite).mpr (abs_lt.mpr ⟨h, by linarith⟩)

end ImplicitPlot.Binary64
