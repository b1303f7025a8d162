import Mathlib
import ImplicitPlot.Proofs.Scalar.Exact

/-!
# Exact real numbers

The real numbers as scalars. They have what the rational numbers lack, a power for every exponent,
so that a statement about a range of exponents is made over them. A power of a negative base is
meaningful for integral exponents only.
-/

namespace ImplicitPlot.ExactReal

open Exact

noncomputable instance : Scalar ℝ where
  zero := 0
  one := 1
  abs := fun a ↦ |a|
  pow := fun a b ↦ a ^ b
  round := fun a ↦ nearest a
  toInt := fun a ↦ ⌊a⌋
  nan := 0
  decidableLE := inferInstance
  decidableLT := inferInstance

@[simp] theorem not_isNaN (a : ℝ) : ¬Scalar.IsNaN a := not_not_intro (le_refl (a : ℝ))

@[simp] theorem isFinite (a : ℝ) : Scalar.IsFinite a := not_isNaN _

@[simp] theorem agree_iff {a b : ℝ} : Scalar.Agree a b ↔ a = b :=
  ⟨fun h ↦ le_antisymm h.1 h.2, fun h ↦ h ▸ ⟨le_refl (a : ℝ), le_refl (a : ℝ)⟩⟩

instance : Scalar.Lawful ℝ where
  le_trans {a b c} h h' := le_trans h h'
  lt_iff {a b} := lt_iff_le_not_ge
  not_isNaN_of_le {a b} _ := ⟨not_isNaN a, not_isNaN b⟩
  le_total {a b} _ _ := le_total a b
  neg_le_neg {a b} h := neg_le_neg h
  neg_neg a := neg_neg a
  neg_zero := agree_iff.mpr neg_zero
  abs_of_nonneg {a} h := agree_iff.mpr (abs_of_nonneg h)
  abs_of_nonpos {a} h := agree_iff.mpr (abs_of_nonpos h)
  not_isNaN_of_isFinite {a} _ := not_isNaN a
  isFinite_neg {a} _ := isFinite _
  sub_self {a} _ := agree_iff.mpr (sub_self a)
  isNaN_nan {a} h := absurd h (not_isNaN a)
  round_neg a := by
    change ((nearest (-a) : ℤ) : ℝ) = -(nearest a : ℝ)
    rw [nearest_neg, Int.cast_neg]
  zeroTolerance_pos := by
    change (0 : ℝ) < 1e-9
    norm_num

@[simp] theorem maxNum_eq_max (a b : ℝ) : Scalar.maxNum a b = max a b := by
  rw [Scalar.maxNum]
  split
  next h => exact (max_eq_right h.le).symm
  next h =>
    rw [if_neg (not_isNaN a)]
    exact (max_eq_left (not_lt.mp h)).symm

/-! ## Rounding -/

theorem zeroTolerance_lt_half : (Scalar.zeroTolerance : ℝ) < 1 / 2 := by
  change (1e-9 : ℝ) < 1 / 2
  norm_num

theorem nearest_eq_of_le {a : ℝ} {n : ℤ} (h : |a - n| ≤ Scalar.zeroTolerance) : nearest a = n :=
  nearest_eq (h.trans_lt zeroTolerance_lt_half)

theorem isEven_intCast_iff (n : ℤ) : Scalar.IsEven (n : ℝ) ↔ Even n := by
  have htwo : (n : ℝ) / 2.0 = n / 2 := by norm_num
  have heq : Scalar.IsEven (n : ℝ) ↔ (n : ℝ) / 2 = nearest ((n : ℝ) / 2) := by
    rw [← htwo]
    exact agree_iff
  exact heq.trans (half_eq_nearest_iff n)

/-! ## The order of results -/

theorem exists_intCast_eq {k : ℝ} (h : Scalar.round k = k) : ∃ n : ℤ, k = n := ⟨nearest k, h.symm⟩

/-- To an integral exponent, the power is the usual one. -/
@[simp] theorem pow_intCast (a : ℝ) (n : ℤ) : Scalar.pow a (n : ℝ) = a ^ n := Real.rpow_intCast a n

instance : Scalar.OrderPreserving ℝ where
  add_le_add_right {a b c} _ _ _ h := add_le_add_left h c
  add_le_add_left {a b c} _ _ _ h := add_le_add_right h c
  sub_le_sub_right {a b c} _ _ _ h := sub_le_sub_right h c
  sub_le_sub_left {a b c} _ _ _ h := sub_le_sub_left h c
  mul_le_mul_right {a b c} _ _ _ h hc := mul_le_mul_of_nonneg_right h hc
  mul_le_mul_left {a b c} _ _ _ h hc := mul_le_mul_of_nonneg_left h hc
  mul_le_mul_right_of_nonpos {a b c} _ _ _ h hc := mul_le_mul_of_nonpos_right h hc
  mul_le_mul_left_of_nonpos {a b c} _ _ _ h hc := mul_le_mul_of_nonpos_left h hc
  div_le_div_right {a b c} _ _ _ h hc := (div_le_div_iff_of_pos_right hc).mpr h
  div_le_div_right_of_neg {a b c} _ _ _ h hc := (div_le_div_right_of_neg hc).mpr h
  div_le_div_left {a b c} _ _ _ h hside hc := div_le_div_left_of_side h hside hc
  div_le_div_left_of_nonpos {a b c} _ _ _ h hside hc := div_le_div_left_of_side_of_nonpos h hside hc
  pow_nonneg {a k} _ _ _ _ ha := Real.rpow_nonneg ha k
  pow_le_pow {a b k} _ _ _ _ hsign ha hab := Real.rpow_le_rpow ha hab hsign
  pow_le_pow_of_neg {a b k} _ _ _ hk hsign ha hab := by
    obtain ⟨n, rfl⟩ := exists_intCast_eq hk
    rw [pow_intCast, pow_intCast]
    exact zpow_le_zpow_of_neg (Int.cast_lt_zero.mp hsign) ha hab
  pow_neg_of_even {a k} _ _ hk heven := by
    obtain ⟨n, rfl⟩ := exists_intCast_eq hk
    rw [pow_intCast, pow_intCast, agree_iff]
    exact ((isEven_intCast_iff n).mp heven).neg_zpow a
  pow_neg_of_odd {a k} _ _ hk hodd := by
    obtain ⟨n, rfl⟩ := exists_intCast_eq hk
    rw [pow_intCast, pow_intCast, agree_iff]
    exact (Int.not_even_iff_odd.mp (mt (isEven_intCast_iff n).mpr hodd)).neg_zpow a

end ImplicitPlot.ExactReal
