import ImplicitPlot.Proofs.Scalar.Product
import ImplicitPlot.Proofs.Scalar.Sums

/-!
# Rounding to an integer stays finite

The fraction of a number is dropped by adding a large number and taking it off again. Neither step
overflows, because a sum lies between the sums of a lesser and of a greater term: it is enough to
know the results at both ends of the range in which there are fractions. So the nearest integer of a
finite number is finite, and the distance from it is a number.
-/

namespace ImplicitPlot.Binary64

open Float.Model

open Scalar (IsFinite IsNaN)

variable {a b z : Float}

/-! ## Finite results -/

theorem Unpacked.normalize_ne_notANumber (spec : Format) (m e : ℤ) (s : UnpackedFloat.Sign) :
    UnpackedFloat.normalize spec m e s ≠ .notANumber := by
  rw [UnpackedFloat.normalize]
  split
  · exact roundWithAccuracy_ne_notANumber _ _ _ _ _
  · exact UnpackedFloat.noConfusion
  · exact roundWithAccuracy_ne_notANumber _ _ _ _ _

theorem Unpacked.add_ne_notANumber {spec : Format} {u v : UnpackedFloat} (hu : u.isFinite = true)
    (hv : v ≠ .notANumber) : UnpackedFloat.add spec u v ≠ .notANumber := by
  match u, v, hu, hv with
  | _, .notANumber, _, hv => exact absurd rfl hv
  | .zero s, .zero t, _, _ =>
    rw [UnpackedFloat.add]
    split <;> exact UnpackedFloat.noConfusion
  | .zero _, .finite _ _ _ _, _, _ | .finite _ _ _ _, .zero _, _, _
  | .zero _, .infinity _, _, _ | .finite _ _ _ _, .infinity _, _, _ =>
    exact UnpackedFloat.noConfusion
  | .finite s m e hm, .finite t n d hn, _, _ => exact normalize_ne_notANumber _ _ _ _

theorem not_isNaN_add (ha : IsFinite a) (hb : ¬IsNaN b) : ¬IsNaN (a + b) := by
  rw [isFinite_iff] at ha
  rw [isNaN_iff] at hb
  rw [isNaN_iff, unpacked_add]
  exact unpack_pack_ne_notANumber (Unpacked.add_ne_notANumber ha hb)

theorem isFinite_neg_of (h : IsFinite a) : IsFinite (-a) :=
  isFinite_iff.mpr (isFinite_neg (isFinite_iff.mp h))

theorem not_isNaN_sub (ha : IsFinite a) (hb : ¬IsNaN b) : ¬IsNaN (a - b) := by
  rw [sub_eq_add_neg]
  exact not_isNaN_add ha (mt Scalar.isNaN_neg_iff.mp hb)

theorem not_isNaN_mul (ha : IsFinite a) (hb : IsFinite b) : ¬IsNaN (a * b) := by
  rw [isNaN_mul_iff ha]
  rintro (hnan | ⟨-, hinfinite⟩)
  · exact Scalar.Lawful.not_isNaN_of_isFinite hb hnan
  · exact hinfinite hb

theorem rank_lt_of_isFinite {u : UnpackedFloat} (h : u.isFinite = true) (hfits : Fits u) :
    -(2047 * 2 ^ 52) < rank u ∧ rank u < 2047 * 2 ^ 52 := by
  match u, h, hfits with
  | .zero _, _, _ => simp [rank]
  | .finite _ _ _ _, _, hfits =>
    have hrank := rank_finite hfits
    omega

/-- A number between finite ones is finite. -/
theorem isFinite_of_le_of_le (hab : a ≤ z) (hzb : z ≤ b) (ha : IsFinite a) (hb : IsFinite b) :
    IsFinite z := by
  obtain ⟨⟨-, hz⟩, hlower⟩ := le_iff.mp hab
  obtain ⟨-, hupper⟩ := le_iff.mp hzb
  rw [isFinite_iff] at ha hb ⊢
  have hrank := rank_lt_of_isFinite ha (fits_unpacked a)
  have hrank' := rank_lt_of_isFinite hb (fits_unpacked b)
  exact isFinite_of_rank hz (by omega) (by omega)

theorem isFinite_add_of_le_of_le (hab : a ≤ z) (hzb : z ≤ b) (ha : IsFinite a) (hb : IsFinite b)
    {c : Float} (hc : IsFinite c) (hac : IsFinite (a + c)) (hbc : IsFinite (b + c)) :
    a + c ≤ z + c ∧ z + c ≤ b + c ∧ IsFinite (z + c) := by
  have hcc : c ≤ c := Scalar.le_refl_of_isFinite hc
  have hnumber := Scalar.Lawful.not_isNaN_of_isFinite hc
  have hsum := not_isNaN_add (isFinite_of_le_of_le hab hzb ha hb) hnumber
  have hlower := add_le_add hab hcc (not_isNaN_add ha hnumber) hsum
  have hupper := add_le_add hzb hcc hsum (not_isNaN_add hb hnumber)
  exact ⟨hlower, hupper, isFinite_of_le_of_le hlower hupper hac hbc⟩

/-! ## Rounding to an integer -/

theorem isFinite_roundMagnitude (ha : IsFinite a) (hpos : 0 < a) : IsFinite (roundMagnitude a) := by
  rw [roundMagnitude]
  split
  next hlt =>
    obtain ⟨hlower, hupper, hfinite⟩ := isFinite_add_of_le_of_le (c := integralFrom)
      (lt_iff_le_not_le.mp hpos).1 (lt_iff_le_not_le.mp hlt).1 (by decide +kernel)
      (by decide +kernel) (by decide +kernel) (by decide +kernel) (by decide +kernel)
    obtain ⟨hlower, hupper, hfinite⟩ := isFinite_add_of_le_of_le (c := -integralFrom) hlower hupper
      (by decide +kernel) (by decide +kernel) (by decide +kernel) (by decide +kernel)
      (by decide +kernel)
    obtain ⟨-, -, hsucc⟩ := isFinite_add_of_le_of_le (c := 1) hlower hupper (by decide +kernel)
      (by decide +kernel) (by decide +kernel) (by decide +kernel) (by decide +kernel)
    rw [← sub_eq_add_neg] at hfinite hsucc
    dsimp only
    split
    · exact hsucc
    · exact hfinite
  next => exact ha

theorem isFinite_round (ha : IsFinite a) : IsFinite (round a) := by
  rw [round]
  split
  next hneg =>
    exact isFinite_neg_of (isFinite_roundMagnitude (isFinite_neg_of ha) (neg_pos_iff.mpr hneg))
  next =>
    split
    next hpos => exact isFinite_roundMagnitude ha hpos
    next => exact ha

theorem eq_infinity_or_neg (ha : ¬IsNaN a) (hinf : ¬IsFinite a) :
    a = infinity ∨ a = -infinity := by
  rw [isNaN_iff] at ha
  rw [isFinite_iff] at hinf
  have hpos : unpacked infinity = .infinity .positive := rfl
  have hneg : unpacked (-infinity) = .infinity .negative := by
    rw [unpacked_neg, hpos]
    rfl
  match hu : unpacked a with
  | .notANumber => exact absurd hu ha
  | .zero _ | .finite _ _ _ _ =>
    rw [hu] at hinf
    exact absurd rfl hinf
  | .infinity .positive => exact .inl (unpacked_injective (hu.trans hpos.symm))
  | .infinity .negative => exact .inr (unpacked_injective (hu.trans hneg.symm))

theorem not_isNaN_round (ha : ¬IsNaN a) : ¬IsNaN (round a) := by
  by_cases hfinite : IsFinite a
  · exact Scalar.Lawful.not_isNaN_of_isFinite (isFinite_round hfinite)
  · rcases eq_infinity_or_neg ha hfinite with rfl | rfl
    · decide +kernel
    · decide +kernel

end ImplicitPlot.Binary64
