import ImplicitPlot.Proofs.Scalar.Laws
import ImplicitPlot.Proofs.Scalar.RoundingError

/-!
# Doubles and halves

The double of a number is a number, if it is not too large: the exponent is one more, or the
mantissa has one bit more. So a sum that is rounded does not pass the double of either of its terms
that it does not pass exactly, and half of the sum lies between the terms
(`half_sum_between`). This needs the sum to be finite, which it is exactly if the exact sum is
below the bound at which numbers overflow (`isFinite_add_iff`); half of an infinite sum is infinite
again.
-/

namespace ImplicitPlot.Binary64

open Float.Model

open UnpackedFloat (Sign)

open Scalar (IsFinite IsNaN Lawful)

variable {a b s : Float} {u : UnpackedFloat} {z : ℤ}

/-! ## Doubles -/

theorem exists_double (hu : u.isFinite = true) (hfits : Fits u)
    (hlt : |((2 * units u : ℤ) : ℚ)| < overflowBound) :
    ∃ v : UnpackedFloat, v.isFinite = true ∧ Fits v ∧ units v = 2 * units u := by
  match u, hu, hfits with
  | .zero t, _, _ => exact ⟨.zero t, rfl, trivial, rfl⟩
  | .finite t m e hm, _, ⟨hlower, hupper, hbits, hnormal⟩ =>
    rcases Nat.lt_or_ge m (2 ^ 52) with hsmall | hlarge
    · -- The mantissa has room for one more bit. The exponent stays, as it is the least one.
      refine ⟨.finite t (2 * m) e (by omega), rfl, ⟨hlower, hupper, by omega, by omega⟩, ?_⟩
      cases t <;> simp [units, Sign.apply] <;> ring
    · have hexponent : (e + 1 + 1074).toNat = (e + 1074).toNat + 1 := by omega
      have hunits : units (.finite t m (e + 1) hm) = 2 * units (.finite t m e hm) := by
        rw [units, units, hexponent, pow_succ]
        cases t <;> simp [Sign.apply] <;> ring
      have hroom : e + 1 ≤ 971 := by
        by_contra hgreat
        have habs : |((2 * units (.finite t m e hm) : ℤ) : ℚ)| = m * 2 ^ (e + 1 + 1074).toNat := by
          rw [← hunits]
          cases t <;> simp [units, Sign.apply]
        have hmantissa : (2 : ℚ) ^ 52 ≤ m := by exact_mod_cast hlarge
        have hpower : (2 : ℚ) ^ 2046 ≤ 2 ^ (e + 1 + 1074).toNat :=
          pow_le_pow_right₀ (by norm_num) (by omega)
        have hbound : (2 : ℚ) ^ 2098 ≤ m * 2 ^ (e + 1 + 1074).toNat := by
          rw [show (2 : ℚ) ^ 2098 = 2 ^ 52 * 2 ^ 2046 from pow_add 2 52 2046]
          exact mul_le_mul hmantissa hpower (by positivity) (by positivity)
        rw [habs] at hlt
        exact absurd (hlt.trans overflowBound_lt) (not_lt.mpr hbound)
      exact ⟨.finite t m (e + 1) hm, rfl, ⟨by omega, hroom, hbits, fun _ ↦ hlarge⟩, hunits⟩

theorem double_units_le (hs : IsFinite s) (ha : IsFinite a)
    (h : SignedRoundsTo z (rank (unpacked s))) (hz : 2 * units (unpacked a) ≤ z) :
    2 * units (unpacked a) ≤ units (unpacked s) := by
  have hzlt := (abs_lt.mp (abs_lt_of_signedRoundsTo hs h)).2
  have hsgt := (abs_lt.mp (abs_units_lt hs)).1
  by_cases hlt : |((2 * units (unpacked a) : ℤ) : ℚ)| < overflowBound
  · obtain ⟨v, hv, hfits, hunits⟩ := exists_double (isFinite_iff.mp ha) (fits_unpacked a) hlt
    rw [← hunits] at hz ⊢
    exact units_le_of_rank_le hv (isFinite_iff.mp hs) hfits (fits_unpacked s)
      ((signedRoundsTo_units hv hfits).le h hz)
  · -- A double that is too large is not reached by what is finite, and one that is too large and
    -- negative is below all numbers.
    have hz' : ((2 * units (unpacked a) : ℤ) : ℚ) ≤ z := by exact_mod_cast hz
    have hle : ((2 * units (unpacked a) : ℤ) : ℚ) ≤ units (unpacked s) := by
      rcases le_abs.mp (not_lt.mp hlt) with hpos | hneg
      · exact absurd (hpos.trans hz') (not_le.mpr hzlt)
      · linarith
    exact_mod_cast hle

private theorem units_le_double (hs : IsFinite s) (ha : IsFinite a)
    (h : SignedRoundsTo z (rank (unpacked s))) (hz : z ≤ 2 * units (unpacked a)) :
    units (unpacked s) ≤ 2 * units (unpacked a) := by
  have hunits (t : Float) : units (unpacked (-t)) = -units (unpacked t) := by
    rw [unpacked_neg, units_neg]
  have hneg : SignedRoundsTo (-z) (rank (unpacked (-s))) := by
    rw [unpacked_neg, rank_neg]
    exact h.neg
  have hle := double_units_le (isFinite_neg_of hs) (isFinite_neg_of ha) hneg
    (by rw [hunits]; omega)
  rw [hunits, hunits] at hle
  omega

/-! ## Halves -/

theorem signedValueRoundsTo_half (ha : IsFinite a) :
    SignedValueRoundsTo (units (unpacked a) / 2) (rank (unpacked (a / 2.0))) := by
  have htwo : units (unpacked 2.0) = 2 ^ 1074 * 2 := by decide +kernel
  have hquotient := signedValueRoundsTo_div ha (by decide +kernel : IsFinite (2.0 : Float))
    (by rw [htwo]; positivity)
  have hhalf : (units (unpacked a) : ℚ) * 2 ^ 1074 / (units (unpacked 2.0) : ℚ)
      = units (unpacked a) / 2 := by
    rw [htwo, mul_comm (units (unpacked a) : ℚ), Int.cast_mul, Int.cast_pow, Int.cast_ofNat]
    exact mul_div_mul_left _ _ (by positivity)
  rwa [hhalf] at hquotient

theorem unpacked_half (a : Float) : unpacked (a / 2.0)
    = encoded (UnpackedFloat.div .binary64 (unpacked a)
        (.finite .positive (2 ^ 52) (-51) (by decide))) := rfl

theorem half_isNumber (ha : IsFinite a) : unpacked (a / 2.0) ≠ .notANumber :=
  mt isNaN_iff.mpr (not_isNaN_div ha (by decide +kernel))

private theorem half_between (hs : IsFinite s) (ha : IsFinite a) (hb : IsFinite b)
    (hlower : 2 * units (unpacked a) ≤ units (unpacked s))
    (hupper : units (unpacked s) ≤ 2 * units (unpacked b)) : a ≤ s / 2.0 ∧ s / 2.0 ≤ b := by
  have hhalf := signedValueRoundsTo_half hs
  have hself {t : Float} (ht : IsFinite t) :
      SignedValueRoundsTo (units (unpacked t)) (rank (unpacked t)) :=
    (signedRoundsTo_units (isFinite_iff.mp ht) (fits_unpacked t)).value
  have hlower' : (2 : ℚ) * units (unpacked a) ≤ units (unpacked s) := by exact_mod_cast hlower
  have hupper' : (units (unpacked s) : ℚ) ≤ 2 * units (unpacked b) := by exact_mod_cast hupper
  have hna := ne_notANumber_of_isFinite (isFinite_iff.mp ha)
  have hnb := ne_notANumber_of_isFinite (isFinite_iff.mp hb)
  exact ⟨le_iff.mpr ⟨⟨hna, half_isNumber hs⟩, (hself ha).le hhalf (by linarith)⟩,
    le_iff.mpr ⟨⟨half_isNumber hs, hnb⟩, hhalf.le (hself hb) (by linarith)⟩⟩

/-- Half of an infinite number is infinite. -/
theorem isFinite_of_isFinite_half (hs : ¬IsNaN s) (h : IsFinite (s / 2.0)) : IsFinite s := by
  rw [isFinite_iff, unpacked_half] at h
  rw [isNaN_iff] at hs
  rw [isFinite_iff]
  match hu : unpacked s with
  | .notANumber => exact absurd hu hs
  | .infinity t =>
    rw [hu] at h
    cases t <;> cases h
  | .zero _ | .finite _ _ _ _ => rfl

/-- **Half of a finite sum lies between the terms.** The exact sum is between the doubles of the
terms, and rounding it keeps it there. -/
theorem half_sum_between (ha : IsFinite a) (hb : IsFinite b) (hab : a ≤ b) (h : IsFinite (a + b)) :
    a ≤ (a + b) / 2.0 ∧ (a + b) / 2.0 ≤ b := by
  have hunits := (le_iff_units_le ha hb).mp hab
  have hsum := signedRoundsTo_sum ha hb
  exact half_between h ha hb (double_units_le h ha hsum (by omega))
    (units_le_double h hb hsum (by omega))

end ImplicitPlot.Binary64
