import ImplicitPlot.Proofs.Scalar.Integral

/-!
# Sizes of binary64 numbers

Binary64 numbers of equal size are the same number, except that there are two zeros
(`eq_or_zero_of_agree`). So operands of equal size give results of equal size if a zero of either
sign is treated alike, and that is so for all operations but the division by a zero. A power is the
platform's: what is asked of it is its value where the exponent or the base is a zero.
-/

namespace ImplicitPlot.Binary64

open Float.Model

open Scalar (Agree IsNaN IsFinite)

variable {a a' b b' z : Float}

/-! ## Numbers of equal size -/

/-- Numbers are of equal size if their ranks are equal. -/
theorem agree_iff :
    Agree a b ↔ (unpacked a ≠ .notANumber ∧ unpacked b ≠ .notANumber) ∧
      rank (unpacked a) = rank (unpacked b) := by
  rw [Agree, le_iff, le_iff]
  constructor
  · rintro ⟨⟨hnumbers, hle⟩, -, hge⟩
    exact ⟨hnumbers, Int.le_antisymm hle hge⟩
  · rintro ⟨hnumbers, hrank⟩
    exact ⟨⟨hnumbers, hrank.le⟩, hnumbers.symm, hrank.ge⟩

/-- **Numbers of equal size are the same, or zeros.** -/
theorem eq_or_zero_of_agree (h : Agree a b) : a = b ∨ Agree a 0 ∧ Agree b 0 := by
  obtain ⟨⟨ha, hb⟩, hrank⟩ := agree_iff.mp h
  rw [agree_zero_iff, agree_zero_iff]
  exact (eq_or_zero_of_rank_eq ha hb (fits_unpacked a) (fits_unpacked b) hrank).imp_left
    unpacked_injective

theorem eq_zero_or_neg_zero (h : Agree a 0) : a = 0 ∨ a = -0 := by
  obtain ⟨s, hs⟩ := agree_zero_iff.mp h
  have hzero : unpacked (-0) = .zero .negative := by
    rw [unpacked_neg]
    rfl
  cases s with
  | positive => exact .inl (unpacked_injective hs)
  | negative => exact .inr (unpacked_injective (hs.trans hzero.symm))

/-! ## Operations on zeros -/

theorem Unpacked.zero_add (spec : Format) (s : UnpackedFloat.Sign) (v : UnpackedFloat) :
    UnpackedFloat.add spec (.zero s) v = v ∨
      ∃ t, v = .zero t ∧ ∃ r, UnpackedFloat.add spec (.zero s) v = .zero r := by
  match v with
  | .notANumber | .infinity _ | .finite _ _ _ _ => exact .inl rfl
  | .zero t =>
    refine .inr ⟨t, rfl, ?_⟩
    rw [UnpackedFloat.add]
    split
    · exact ⟨s, rfl⟩
    · exact ⟨.positive, rfl⟩

theorem zero_add_agree (hz : Agree z 0) (hb : ¬IsNaN b) : Agree (z + b) b := by
  obtain ⟨s, hs⟩ := agree_zero_iff.mp hz
  rcases Unpacked.zero_add .binary64 s (unpacked b) with h | ⟨t, ht, r, h⟩
  · have hsum : z + b = b := by
      refine unpacked_injective ?_
      rw [unpacked_add, hs, h, encoded_of_fits (fits_unpacked b)]
    rw [hsum]
    exact Scalar.agree_self hb
  · have hfits : Fits (.zero r) := trivial
    have hsum : unpacked (z + b) = .zero r := by
      rw [unpacked_add, hs, h, encoded_of_fits hfits]
    exact (agree_zero_iff.mpr ⟨r, hsum⟩).trans (agree_zero_iff.mpr ⟨t, ht⟩).symm

theorem Unpacked.mul_comm (spec : Format) (u v : UnpackedFloat) :
    UnpackedFloat.mul spec u v = UnpackedFloat.mul spec v u := by
  have hsign (s t : UnpackedFloat.Sign) : s * t = t * s := by
    cases s <;> cases t <;> rfl
  cases u with
  | notANumber => cases v <;> rfl
  | infinity s | zero s =>
    cases v with
    | notANumber => rfl
    | infinity t | zero t | finite t => simp only [UnpackedFloat.mul, hsign s t]
  | finite s m e =>
    cases v with
    | notANumber => rfl
    | infinity t | zero t => simp only [UnpackedFloat.mul, hsign s t]
    | finite t n d => simp only [UnpackedFloat.mul, hsign s t, Nat.mul_comm m n, Int.add_comm e d]

theorem mul_comm (a b : Float) : a * b = b * a := by
  change Float.ofModel (.pack _) = Float.ofModel (.pack _)
  rw [Unpacked.mul_comm]

/-- A product with a zero is a zero, unless it is not a number. -/
theorem zero_mul_agree (hz : Agree z 0) (h : ¬IsNaN (z * b)) : Agree (z * b) 0 := by
  obtain ⟨s, hs⟩ := agree_zero_iff.mp hz
  have hmul : unpacked (z * b) = encoded (UnpackedFloat.mul .binary64 (.zero s) (unpacked b)) := by
    rw [← hs]
    rfl
  have hproduct : UnpackedFloat.mul .binary64 (.zero s) (unpacked b) ≠ .notANumber := by
    intro hnan
    rw [isNaN_iff, hmul, hnan] at h
    exact h rfl
  rw [agree_zero_iff, hmul]
  match unpacked b, hproduct with
  | .notANumber, h | .infinity _, h => exact absurd rfl h
  | .zero t, _ | .finite t _ _ _, _ => exact ⟨s * t, encoded_of_fits (u := .zero _) trivial⟩

theorem zero_div_agree (hz : Agree z 0) (hnumber : ¬IsNaN b) (hb : ¬Agree b 0) :
    Agree (z / b) 0 := by
  obtain ⟨s, hs⟩ := agree_zero_iff.mp hz
  have hdiv : unpacked (z / b) = encoded (UnpackedFloat.div .binary64 (.zero s) (unpacked b)) := by
    rw [← hs]
    rfl
  rw [isNaN_iff] at hnumber
  rw [agree_zero_iff] at hb
  rw [agree_zero_iff, hdiv]
  match unpacked b, hnumber, hb with
  | .notANumber, hnumber, _ => exact absurd rfl hnumber
  | .zero t, _, hb => exact absurd ⟨t, rfl⟩ hb
  | .infinity t, _, _ | .finite t _ _ _, _, _ =>
    exact ⟨s / t, encoded_of_fits (u := .zero _) trivial⟩

/-! ## Results of equal size -/

theorem add_agree (ha : Agree a a') (hb : Agree b b') (h : ¬IsNaN (a + b)) :
    Agree (a + b) (a' + b') := by
  rcases eq_or_zero_of_agree ha with rfl | ⟨hz, hz'⟩
  · rcases eq_or_zero_of_agree hb with rfl | ⟨hz, hz'⟩
    · exact Scalar.agree_self h
    · have ha := ha.not_isNaN.1
      rw [add_comm a b, add_comm a b']
      exact (zero_add_agree hz ha).trans (zero_add_agree hz' ha).symm
  · obtain ⟨hnumber, hnumber'⟩ := hb.not_isNaN
    exact (zero_add_agree hz hnumber).trans (hb.trans (zero_add_agree hz' hnumber').symm)

theorem sub_agree (ha : Agree a a') (hb : Agree b b') (h : ¬IsNaN (a - b)) :
    Agree (a - b) (a' - b') := by
  rw [sub_eq_add_neg] at h
  rw [sub_eq_add_neg, sub_eq_add_neg]
  exact add_agree ha hb.neg h

theorem isFinite_of_agree (h : Agree a b) (ha : IsFinite a) : IsFinite b := by
  rcases eq_or_zero_of_agree h with rfl | ⟨-, hz⟩
  · exact ha
  · obtain ⟨s, hs⟩ := agree_zero_iff.mp hz
    rw [isFinite_iff, hs]
    rfl

theorem mul_agree_of_zero (hz : Agree z 0) (hz' : Agree a' 0) (hb : Agree b b')
    (h : ¬IsNaN (z * b)) : Agree (z * b) (a' * b') := by
  have hfinite {x : Float} (hx : Agree x 0) : IsFinite x :=
    isFinite_of_agree hx.symm (by decide +kernel)
  have hb' : ¬IsNaN (a' * b') := by
    rw [isNaN_mul_iff (hfinite hz), not_or, not_and, not_not] at h
    rw [isNaN_mul_iff (hfinite hz')]
    rintro (hnan | ⟨-, hinfinite⟩)
    · exact hb.not_isNaN.2 hnan
    · exact hinfinite (isFinite_of_agree hb (h.2 hz))
  exact (zero_mul_agree hz h).trans (zero_mul_agree hz' hb').symm

theorem mul_agree (ha : Agree a a') (hb : Agree b b') (h : ¬IsNaN (a * b)) :
    Agree (a * b) (a' * b') := by
  rcases eq_or_zero_of_agree ha with rfl | ⟨hz, hz'⟩
  · rcases eq_or_zero_of_agree hb with rfl | ⟨hz, hz'⟩
    · exact Scalar.agree_self h
    · rw [mul_comm a b] at h ⊢
      rw [mul_comm a b']
      exact mul_agree_of_zero hz hz' ha h
  · exact mul_agree_of_zero hz hz' hb h

theorem div_agree (ha : Agree a a') (hb : Agree b b') (hzero : ¬Agree b 0) (h : ¬IsNaN (a / b)) :
    Agree (a / b) (a' / b') := by
  obtain rfl : b = b' := (eq_or_zero_of_agree hb).resolve_right fun hz ↦ hzero hz.1
  rcases eq_or_zero_of_agree ha with rfl | ⟨hz, hz'⟩
  · exact Scalar.agree_self h
  · have hnumber := hb.not_isNaN.1
    exact (zero_div_agree hz hnumber hzero).trans (zero_div_agree hz' hnumber hzero).symm

/-! ## Rounding to an integer -/

theorem round_of_agree_zero (hz : Agree z 0) : round z = z := by
  have hneg : ¬z < 0 := fun hlt ↦ (lt_iff_le_not_le.mp hlt).2 hz.2
  have hpos : ¬0 < z := fun hlt ↦ (lt_iff_le_not_le.mp hlt).2 hz.1
  rw [round, if_neg hneg, if_neg hpos]

theorem round_agree (h : Agree a a') : Agree (round a) (round a') := by
  rcases eq_or_zero_of_agree h with rfl | ⟨hz, hz'⟩
  · exact Scalar.agree_self (not_isNaN_round h.not_isNaN.1)
  · rwa [round_of_agree_zero hz, round_of_agree_zero hz']

/-! ## Powers with zeros -/

/-- A power to a zero is one, and a positive power of a zero is zero, whatever the signs of the
zeros are. -/
structure PowersOfZero (pow : Float → Float → Float) : Prop where
  pow_zero {a b : Float} : ¬IsNaN a → Agree b 0 → Agree (pow a b) 1
  zero_pow {a b : Float} : Agree a 0 → 0 < b → Agree (pow a b) 0

theorem PowersOfZero.pow_agree {pow : Float → Float → Float} (hpow : PowersOfZero pow)
    (ha : Agree a a') (hb : Agree b b') (hzero : ¬(b < 0 ∧ Agree a 0)) (h : ¬IsNaN (pow a b)) :
    Agree (pow a b) (pow a' b') := by
  obtain ⟨hna, hna'⟩ := ha.not_isNaN
  rcases eq_or_zero_of_agree hb with rfl | ⟨hz, hz'⟩
  · rcases eq_or_zero_of_agree ha with rfl | ⟨hz, hz'⟩
    · exact Scalar.agree_self h
    · by_cases hbzero : Agree b 0
      · exact (hpow.pow_zero hna hbzero).trans (hpow.pow_zero hna' hbzero).symm
      · have hpos : 0 < b := by
          have hnonneg : 0 ≤ b := Scalar.le_of_not_lt hb.not_isNaN.1
            Scalar.not_isNaN_zero fun hneg ↦ hzero ⟨hneg, hz⟩
          exact lt_iff_le_not_le.mpr ⟨hnonneg, fun hle ↦ hbzero ⟨hle, hnonneg⟩⟩
        exact (hpow.zero_pow hz hpos).trans (hpow.zero_pow hz' hpos).symm
  · exact (hpow.pow_zero hna hz).trans (hpow.pow_zero hna' hz').symm

/-- **The sizes of results depend on the sizes of operands.** -/
theorem sizeDetermined {pow : Float → Float → Float} (hpow : PowersOfZero pow) :
    @Scalar.SizeDetermined Float (arithmetic pow) :=
  letI := arithmetic pow
  { add_agree
    sub_agree
    mul_agree
    div_agree
    round_agree
    not_isNaN_sub_round := fun ha ↦
      not_isNaN_sub ha (Scalar.Lawful.not_isNaN_of_isFinite (isFinite_round ha))
    pow_agree := hpow.pow_agree }

end ImplicitPlot.Binary64
