import ImplicitPlot.Proofs.Scalar.Binary64

/-!
# Products of binary64 numbers

A product may overflow, but of numbers it is a number, with one exception: a zero times an infinity.
Rounding and encoding turn what is too large into an infinity, and never into what is not a number.
-/

namespace ImplicitPlot.Binary64

open Float.Model

open UnpackedFloat (Sign packComponents)

/-! ## Encoded results -/

theorem decode_ne_notANumber {s : Sign} {exponent : BitVec 11} {mantissa : BitVec 52}
    (h : exponent = -1#11 → mantissa = 0#52) : decode s exponent mantissa ≠ .notANumber := by
  rw [decode]
  split
  next hones =>
    rw [if_pos (h hones)]
    exact UnpackedFloat.noConfusion
  next =>
    split
    · split <;> exact UnpackedFloat.noConfusion
    · exact UnpackedFloat.noConfusion

/-- **Encoding keeps numbers numbers**, also those that are out of bounds. -/
theorem unpack_pack_ne_notANumber {u : UnpackedFloat} (h : u ≠ .notANumber) :
    UnpackedFloat.unpack .binary64 (UnpackedFloat.pack .binary64 u) ≠ .notANumber := by
  have hinfinity (s : Sign) :
      UnpackedFloat.unpack .binary64 (UnpackedFloat.packedInfinity .binary64 s)
        ≠ .notANumber := by
    rw [UnpackedFloat.packedInfinity, unpack_packComponents]
    exact decode_ne_notANumber fun _ ↦ rfl
  cases u with
  | notANumber => exact absurd rfl h
  | infinity s => exact hinfinity s
  | zero s =>
    rw [UnpackedFloat.pack, UnpackedFloat.packedZero, unpack_packComponents]
    exact decode_ne_notANumber fun _ ↦ rfl
  | finite s m e hm =>
    rw [UnpackedFloat.pack]
    dsimp only
    split
    · exact hinfinity s
    next hroom =>
      split
      · -- The exponent field is not that of an infinity, since there is room for the exponent.
        rw [unpack_packComponents]
        refine decode_ne_notANumber fun hones ↦ ?_
        have hfield := congrArg BitVec.toNat hones
        rw [BitVec.toNat_ofNat] at hfield
        change _ % 2 ^ 11 = 2047 at hfield
        change ¬2 ^ 11 ≤ _ at hroom
        omega
      · rw [unpack_packComponents]
        exact decode_ne_notANumber nofun

/-! ## Products -/

theorem Unpacked.roundWithAccuracy_ne_notANumber (spec : Format) (s : UnpackedFloat.Sign) (m : ℕ)
    (e : ℤ) (acc : UnpackedFloat.Accuracy) :
    UnpackedFloat.roundWithAccuracy spec s m e acc ≠ .notANumber := by
  rw [UnpackedFloat.roundWithAccuracy]
  dsimp only
  split <;> nofun

/-- A product with a finite factor is not a number only if the other factor is not, or is an
infinity that meets a zero. -/
theorem Unpacked.mul_eq_notANumber_iff {spec : Format} {a b : UnpackedFloat}
    (ha : a.isFinite = true) : UnpackedFloat.mul spec a b = .notANumber ↔
      b = .notANumber ∨ (∃ s, a = .zero s) ∧ ∃ s, b = .infinity s := by
  cases a with
  | notANumber | infinity => cases ha
  | zero s =>
    cases b with
    | notANumber => exact iff_of_true rfl (.inl rfl)
    | infinity t => exact iff_of_true rfl (.inr ⟨⟨s, rfl⟩, t, rfl⟩)
    | zero t => simp [UnpackedFloat.mul]
    | finite t => simp [UnpackedFloat.mul]
  | finite s m e hm =>
    cases b with
    | notANumber => exact iff_of_true rfl (.inl rfl)
    | infinity t => simp [UnpackedFloat.mul]
    | zero t => simp [UnpackedFloat.mul]
    | finite t n d hn =>
      exact iff_of_false (roundWithAccuracy_ne_notANumber _ _ _ _ _) (by simp)

/-- The number is a zero, of either sign. -/
theorem agree_zero_iff {a : Float} : Scalar.Agree a 0 ↔ ∃ s, unpacked a = .zero s := by
  constructor
  · rintro ⟨hle, hge⟩
    obtain ⟨⟨hnumber, -⟩, hle⟩ := le_iff.mp hle
    obtain ⟨-, hge⟩ := le_iff.mp hge
    rw [unpacked_zero] at hle hge
    have hfits := fits_unpacked a
    cases hu : unpacked a with
    | notANumber => exact absurd hu hnumber
    | zero s => exact ⟨s, rfl⟩
    | infinity s =>
      rw [hu] at hle hge
      cases s with
      | positive => exact absurd hle (by decide)
      | negative => exact absurd hge (by decide)
    | finite s m e hm =>
      rw [hu] at hle hge hfits
      have hrank := rank_finite hfits
      simp only [rank] at hle hge hrank
      omega
  · rintro ⟨s, hs⟩
    have hnumber : unpacked a ≠ .notANumber := by
      rw [hs]
      exact UnpackedFloat.noConfusion
    have hzero : unpacked 0 ≠ .notANumber := by
      rw [unpacked_zero]
      exact UnpackedFloat.noConfusion
    have hrank : rank (unpacked a) = rank (unpacked 0) := by
      rw [hs, unpacked_zero]
      rfl
    exact ⟨le_iff.mpr ⟨⟨hnumber, hzero⟩, hrank.le⟩, le_iff.mpr ⟨⟨hzero, hnumber⟩, hrank.ge⟩⟩

/-- **When a product is not a number**, if its first factor is finite. -/
theorem isNaN_mul_iff {a b : Float} (ha : Scalar.IsFinite a) :
    Scalar.IsNaN (a * b) ↔ Scalar.IsNaN b ∨ Scalar.Agree a 0 ∧ ¬Scalar.IsFinite b := by
  have hmul : unpacked (a * b) = .notANumber ↔
      UnpackedFloat.mul .binary64 (unpacked a) (unpacked b) = .notANumber := by
    change UnpackedFloat.unpack _ (UnpackedFloat.pack _
      (UnpackedFloat.mul _ (unpacked a) (unpacked b))) = _ ↔ _
    constructor
    · exact fun h ↦ by_contra fun hne ↦ unpack_pack_ne_notANumber hne h
    · intro h
      rw [h]
      rfl
  rw [isNaN_iff, isNaN_iff, hmul, Unpacked.mul_eq_notANumber_iff (isFinite_iff.mp ha),
    agree_zero_iff, isFinite_iff]
  cases unpacked b with
  | notANumber => exact iff_of_true (.inl rfl) (.inl rfl)
  | infinity s => simp [UnpackedFloat.isFinite]
  | zero | finite => simp [UnpackedFloat.isFinite]

end ImplicitPlot.Binary64
