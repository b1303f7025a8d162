import ImplicitPlot.Proofs.Scalar.Exact
import ImplicitPlot.Proofs.Scalar.Magnitudes

/-!
# Binary64 operations follow the order

A product and a quotient are their exact values, rounded, so they are ordered wherever the exact
ones are, up to the infinities that they may become (`mul_le_mul_of_exact`, `div_le_div_of_exact`).
The exact values are ordered by the laws of a field. With the order of sums these are all the laws
of operations that follow the order, but for those of the power, which are asked of the power.
-/

namespace ImplicitPlot.Binary64

open Scalar (IsFinite IsNaN Lawful)

variable {a b c d : Float}

/-! ## Exact values -/

/-- The exact value of a finite number, in units of the least positive number. -/
def exactValue (a : Float) : ℚ := units (unpacked a)

@[simp] theorem exactValue_zero : exactValue 0 = 0 := by
  rw [exactValue, unpacked_zero, units_zero, Int.cast_zero]

theorem exactValue_le_iff (ha : IsFinite a) (hb : IsFinite b) :
    exactValue a ≤ exactValue b ↔ a ≤ b := by
  rw [exactValue, exactValue, Int.cast_le, le_iff_units_le ha hb]

theorem exactValue_lt_iff (ha : IsFinite a) (hb : IsFinite b) :
    exactValue a < exactValue b ↔ a < b := by
  rw [lt_iff_le_not_ge, exactValue_le_iff ha hb, exactValue_le_iff hb ha, lt_iff_le_not_le]

theorem exactValue_nonneg (ha : IsFinite a) (h : 0 ≤ a) : 0 ≤ exactValue a := by
  rwa [← exactValue_zero, exactValue_le_iff isFinite_zero ha]

theorem exactValue_nonpos (ha : IsFinite a) (h : a ≤ 0) : exactValue a ≤ 0 := by
  rwa [← exactValue_zero, exactValue_le_iff ha isFinite_zero]

theorem exactValue_pos (ha : IsFinite a) (h : 0 < a) : 0 < exactValue a := by
  rwa [← exactValue_zero, exactValue_lt_iff isFinite_zero ha]

theorem exactValue_neg_of_neg (ha : IsFinite a) (h : a < 0) : exactValue a < 0 := by
  rwa [← exactValue_zero, exactValue_lt_iff ha isFinite_zero]

/-! ## Products and quotients -/

theorem mul_le_mul_of_exact (ha : IsFinite a) (hb : IsFinite b) (hc : IsFinite c) (hd : IsFinite d)
    (h : exactValue a * exactValue b ≤ exactValue c * exactValue d) : a * b ≤ c * d := by
  refine le_iff.mpr ⟨⟨mt isNaN_iff.mpr (not_isNaN_mul ha hb),
    mt isNaN_iff.mpr (not_isNaN_mul hc hd)⟩, ?_⟩
  exact (signedValueRoundsTo_mul ha hb).le (signedValueRoundsTo_mul hc hd)
    (div_le_div_of_nonneg_right h (by positivity))

theorem not_isNaN_div_of_exact (ha : IsFinite a) (hb : IsFinite b) (hzero : exactValue b ≠ 0) :
    ¬IsNaN (a / b) := by
  have hne : ¬Scalar.Agree b 0 := fun hagree ↦ hzero
    (le_antisymm (exactValue_nonpos hb hagree.1) (exactValue_nonneg hb hagree.2))
  refine not_isNaN_div_of_ne ha (Lawful.not_isNaN_of_isFinite hb) fun hrank ↦ hne ?_
  have hnumber := mt isNaN_iff.mpr (Lawful.not_isNaN_of_isFinite hb)
  exact ⟨le_iff.mpr ⟨⟨hnumber, nofun⟩, hrank.le⟩, le_iff.mpr ⟨⟨nofun, hnumber⟩, hrank.ge⟩⟩

/-- Quotients are ordered as the exact quotients are, if there are exact ones. -/
theorem div_le_div_of_exact (ha : IsFinite a) (hb : IsFinite b) (hc : IsFinite c) (hd : IsFinite d)
    (hb' : exactValue b ≠ 0) (hd' : exactValue d ≠ 0)
    (h : exactValue a / exactValue b ≤ exactValue c / exactValue d) : a / b ≤ c / d := by
  have hround : ∀ {x y : Float}, IsFinite x → IsFinite y → exactValue y ≠ 0 →
      SignedValueRoundsTo (exactValue x / exactValue y * 2 ^ 1074) (rank (unpacked (x / y))) := by
    intro x y hx hy hzero
    rw [div_mul_eq_mul_div]
    exact signedValueRoundsTo_div hx hy (Int.cast_ne_zero.mp hzero)
  refine le_iff.mpr ⟨⟨mt isNaN_iff.mpr (not_isNaN_div_of_exact ha hb hb'),
    mt isNaN_iff.mpr (not_isNaN_div_of_exact hc hd hd')⟩, ?_⟩
  exact (hround ha hb hb').le (hround hc hd hd') (mul_le_mul_of_nonneg_right h (by positivity))

/-! ## The laws -/

theorem exactValue_side (ha : IsFinite a) (hb : IsFinite b) (hab : a ≤ b) (h : 0 < a ∨ b < 0) :
    (0 < exactValue a ∨ exactValue b < 0) ∧ exactValue a ≠ 0 ∧ exactValue b ≠ 0 := by
  have hle := (exactValue_le_iff ha hb).mpr hab
  rcases h with h | h
  · have hpos := exactValue_pos ha h
    exact ⟨.inl hpos, hpos.ne', (hpos.trans_le hle).ne'⟩
  · have hneg := exactValue_neg_of_neg hb h
    exact ⟨.inr hneg, (hle.trans_lt hneg).ne, hneg.ne⟩

/-- **Binary64 operations follow the order** if the power does. -/
theorem orderPreserving {pow : Float → Float → Float}
    (h : @Scalar.OrderedPowers Float (arithmetic pow)) :
    @Scalar.OrderPreserving Float (arithmetic pow) :=
  letI := arithmetic pow
  haveI := lawful pow
  { h with
    add_le_add_right := fun ha hb hc hab ↦ add_le_add hab (Scalar.le_refl_of_isFinite hc)
      (not_isNaN_add ha (Lawful.not_isNaN_of_isFinite hc))
      (not_isNaN_add hb (Lawful.not_isNaN_of_isFinite hc))
    add_le_add_left := fun ha hb hc hab ↦ add_le_add (Scalar.le_refl_of_isFinite hc) hab
      (not_isNaN_add hc (Lawful.not_isNaN_of_isFinite ha))
      (not_isNaN_add hc (Lawful.not_isNaN_of_isFinite hb))
    sub_le_sub_right := fun ha hb hc hab ↦ sub_le_sub hab (Scalar.le_refl_of_isFinite hc)
      (not_isNaN_sub ha (Lawful.not_isNaN_of_isFinite hc))
      (not_isNaN_sub hb (Lawful.not_isNaN_of_isFinite hc))
    sub_le_sub_left := fun ha hb hc hab ↦ sub_le_sub (Scalar.le_refl_of_isFinite hc) hab
      (not_isNaN_sub hc (Lawful.not_isNaN_of_isFinite hb))
      (not_isNaN_sub hc (Lawful.not_isNaN_of_isFinite ha))
    mul_le_mul_right := fun ha hb hc hab hsign ↦ mul_le_mul_of_exact ha hc hb hc
      (mul_le_mul_of_nonneg_right ((exactValue_le_iff ha hb).mpr hab) (exactValue_nonneg hc hsign))
    mul_le_mul_left := fun ha hb hc hab hsign ↦ mul_le_mul_of_exact hc ha hc hb
      (mul_le_mul_of_nonneg_left ((exactValue_le_iff ha hb).mpr hab) (exactValue_nonneg hc hsign))
    mul_le_mul_right_of_nonpos := fun ha hb hc hab hsign ↦ mul_le_mul_of_exact hb hc ha hc
      (mul_le_mul_of_nonpos_right ((exactValue_le_iff ha hb).mpr hab) (exactValue_nonpos hc hsign))
    mul_le_mul_left_of_nonpos := fun ha hb hc hab hsign ↦ mul_le_mul_of_exact hc hb hc ha
      (mul_le_mul_of_nonpos_left ((exactValue_le_iff ha hb).mpr hab) (exactValue_nonpos hc hsign))
    div_le_div_right := by
      intro a b c ha hb hc hab hsign
      have hpos := exactValue_pos hc hsign
      exact div_le_div_of_exact ha hc hb hc hpos.ne' hpos.ne'
        ((div_le_div_iff_of_pos_right hpos).mpr ((exactValue_le_iff ha hb).mpr hab))
    div_le_div_right_of_neg := by
      intro a b c ha hb hc hab hsign
      have hneg := exactValue_neg_of_neg hc hsign
      exact div_le_div_of_exact hb hc ha hc hneg.ne hneg.ne
        ((div_le_div_right_of_neg hneg).mpr ((exactValue_le_iff ha hb).mpr hab))
    div_le_div_left := by
      intro a b c ha hb hc hab hside hsign
      obtain ⟨hside, ha', hb'⟩ := exactValue_side ha hb hab hside
      exact div_le_div_of_exact hc hb hc ha hb' ha' (Exact.div_le_div_left_of_side
        ((exactValue_le_iff ha hb).mpr hab) hside (exactValue_nonneg hc hsign))
    div_le_div_left_of_nonpos := by
      intro a b c ha hb hc hab hside hsign
      obtain ⟨hside, ha', hb'⟩ := exactValue_side ha hb hab hside
      exact div_le_div_of_exact hc ha hc hb ha' hb' (Exact.div_le_div_left_of_side_of_nonpos
        ((exactValue_le_iff ha hb).mpr hab) hside (exactValue_nonpos hc hsign)) }

end ImplicitPlot.Binary64
