import Mathlib.Algebra.Order.Field.Power
import Mathlib.Data.Rat.Floor
import Mathlib.Tactic.Linarith
import Mathlib.Tactic.NormNum
import ImplicitPlot.Proofs.Scalar.Laws
import ImplicitPlot.Proofs.Scalar.Nearest

/-!
# Exact numbers

The rational numbers as scalars. There are no infinities, every value is a number, and no operation
rounds, so the laws are those of the field. A power has a rational value only for an integral
exponent; other powers are set to zero, and no law speaks of them.
-/

namespace ImplicitPlot.Exact

/-- The nearest integer, a half going away from zero. -/
def round (a : ℚ) : ℚ := if 0 ≤ a then ⌊a + 1 / 2⌋ else -⌊-a + 1 / 2⌋

/-- The power to an integral exponent. -/
def pow (a k : ℚ) : ℚ := if k.den = 1 then a ^ k.num else 0

instance : Scalar ℚ where
  zero := 0
  one := 1
  abs := fun a ↦ |a|
  pow := pow
  round := round
  toInt := fun a ↦ ⌊a⌋
  nan := 0
  decidableLE := inferInstance
  decidableLT := inferInstance

@[simp] theorem not_isNaN (a : ℚ) : ¬Scalar.IsNaN a := not_not_intro (le_refl (a : ℚ))

@[simp] theorem isFinite (a : ℚ) : Scalar.IsFinite a := not_isNaN _

theorem agree_of_eq {a b : ℚ} (h : a = b) : Scalar.Agree a b :=
  h ▸ ⟨le_refl (a : ℚ), le_refl (a : ℚ)⟩

theorem round_eq_nearest (a : ℚ) : round a = nearest a := by
  rw [round, nearest]
  split
  · rfl
  · rw [Int.cast_neg]

@[simp] theorem round_neg (a : ℚ) : round (-a) = -round a := by
  rw [round_eq_nearest, round_eq_nearest, nearest_neg, Int.cast_neg]

instance : Scalar.Lawful ℚ where
  le_trans {a b c} h h' := le_trans h h'
  lt_iff {a b} := lt_iff_le_not_ge
  not_isNaN_of_le {a b} _ := ⟨not_isNaN a, not_isNaN b⟩
  le_total {a b} _ _ := le_total a b
  neg_le_neg {a b} h := neg_le_neg h
  neg_neg a := neg_neg a
  neg_zero := agree_of_eq (neg_zero)
  abs_of_nonneg {a} h := agree_of_eq (abs_of_nonneg h)
  abs_of_nonpos {a} h := agree_of_eq (abs_of_nonpos h)
  not_isNaN_of_isFinite {a} _ := not_isNaN a
  isFinite_neg {a} _ := isFinite _
  sub_self {a} _ := agree_of_eq (sub_self a)
  isNaN_nan {a} h := absurd h (not_isNaN a)
  round_neg := round_neg
  zeroTolerance_pos := by
    change (0 : ℚ) < 1e-9
    norm_num

/-! ## Powers -/

/-- A number that is its own nearest integer is an integer. -/
theorem exists_intCast_eq {k : ℚ} (h : round k = k) : ∃ n : ℤ, k = n :=
  ⟨nearest k, h.symm.trans (round_eq_nearest k)⟩

@[simp] theorem round_intCast (n : ℤ) : round n = n := by
  rw [round_eq_nearest, nearest_intCast]

@[simp] theorem pow_intCast (a : ℚ) (n : ℤ) : pow a n = a ^ n := by
  rw [pow, Rat.den_intCast, if_pos rfl, Rat.num_intCast]

theorem isEven_intCast_iff (n : ℤ) : Scalar.IsEven (n : ℚ) ↔ Even n := by
  have htwo : (n : ℚ) / 2.0 = n / 2 := by norm_num
  have heq : Scalar.IsEven (n : ℚ) ↔ (n : ℚ) / 2 = nearest ((n : ℚ) / 2) := by
    rw [← round_eq_nearest, ← htwo]
    exact ⟨fun h ↦ le_antisymm h.1 h.2, agree_of_eq⟩
  exact heq.trans (half_eq_nearest_iff n)

section Fields

variable {K : Type} [Field K] [LinearOrder K] [IsStrictOrderedRing K] {a b c : K}

theorem zpow_le_zpow_of_neg {n : ℤ} (hn : n < 0) (ha : 0 < a) (hab : a ≤ b) : b ^ n ≤ a ^ n := by
  obtain ⟨m, rfl⟩ : ∃ m : ℕ, n = -m := ⟨n.natAbs, by omega⟩
  rw [zpow_neg, zpow_neg, zpow_natCast, zpow_natCast]
  exact inv_anti₀ (pow_pos ha m) (pow_le_pow_left₀ ha.le hab m)

theorem div_le_div_left_of_side (hab : a ≤ b) (hside : 0 < a ∨ b < 0) (hc : 0 ≤ c) :
    c / b ≤ c / a := by
  rw [div_eq_mul_inv, div_eq_mul_inv]
  refine mul_le_mul_of_nonneg_left ?_ hc
  rcases hside with ha | hb
  · exact inv_anti₀ ha hab
  · exact (inv_le_inv_of_neg hb (hab.trans_lt hb)).mpr hab

theorem div_le_div_left_of_side_of_nonpos (hab : a ≤ b) (hside : 0 < a ∨ b < 0) (hc : c ≤ 0) :
    c / a ≤ c / b := by
  have hneg := div_le_div_left_of_side hab hside (neg_nonneg.mpr hc)
  rw [neg_div, neg_div] at hneg
  exact neg_le_neg_iff.mp hneg

end Fields

instance : Scalar.OrderPreserving ℚ where
  add_le_add_right {a b c} _ _ _ h := add_le_add_left h c
  add_le_add_left {a b c} _ _ _ h := add_le_add_right h c
  sub_le_sub_right {a b c} _ _ _ h := sub_le_sub_right h c
  sub_le_sub_left {a b c} _ _ _ h := sub_le_sub_left h c
  mul_le_mul_right {a b c} _ _ _ h hc := mul_le_mul_of_nonneg_right h hc
  mul_le_mul_left {a b c} _ _ _ h hc := mul_le_mul_of_nonneg_left h hc
  mul_le_mul_right_of_nonpos {a b c} _ _ _ h hc := mul_le_mul_of_nonpos_right h hc
  mul_le_mul_left_of_nonpos {a b c} _ _ _ h hc := mul_le_mul_of_nonpos_left h hc
  div_le_div_right {a b c} _ _ _ h hc := (div_le_div_iff_of_pos_right hc).mpr h
  div_le_div_right_of_neg {a b c} _ _ _ h hc := (div_le_div_right_of_neg hc).mpr h
  div_le_div_left {a b c} _ _ _ h hside hc := div_le_div_left_of_side h hside hc
  div_le_div_left_of_nonpos {a b c} _ _ _ h hside hc := div_le_div_left_of_side_of_nonpos h hside hc
  pow_nonneg {a k} _ _ hk _ ha := by
    obtain ⟨n, rfl⟩ := exists_intCast_eq hk
    have hpow : 0 ≤ a ^ n := zpow_nonneg ha n
    rwa [← pow_intCast] at hpow
  pow_le_pow {a b k} _ _ _ hk hsign ha hab := by
    obtain ⟨n, rfl⟩ := exists_intCast_eq hk
    have hpow : a ^ n ≤ b ^ n := zpow_le_zpow_left₀ (Int.cast_nonneg_iff.mp hsign) ha hab
    rwa [← pow_intCast, ← pow_intCast] at hpow
  pow_le_pow_of_neg {a b k} _ _ _ hk hsign ha hab := by
    obtain ⟨n, rfl⟩ := exists_intCast_eq hk
    have hpow : b ^ n ≤ a ^ n := zpow_le_zpow_of_neg (Int.cast_lt_zero.mp hsign) ha hab
    rwa [← pow_intCast, ← pow_intCast] at hpow
  pow_neg_of_even {a k} _ _ hk heven := by
    obtain ⟨n, rfl⟩ := exists_intCast_eq hk
    have hpow : (-a) ^ n = a ^ n := ((isEven_intCast_iff n).mp heven).neg_zpow a
    rw [← pow_intCast, ← pow_intCast] at hpow
    exact agree_of_eq hpow
  pow_neg_of_odd {a k} _ _ hk hodd := by
    obtain ⟨n, rfl⟩ := exists_intCast_eq hk
    have hpow : (-a) ^ n = -a ^ n :=
      (Int.not_even_iff_odd.mp (mt (isEven_intCast_iff n).mpr hodd)).neg_zpow a
    rw [← pow_intCast, ← pow_intCast] at hpow
    exact agree_of_eq hpow

end ImplicitPlot.Exact
