import Mathlib
import ImplicitPlot.Proofs.Interval.Inclusion
import ImplicitPlot.Proofs.Scalar.ExactReal

/-!
# Exact ranges

Over the real numbers nothing is rounded, and an operation other than a power gives the range of its
results exactly: the least and the greatest result on values of the operands are the bounds
(`Interval.IsRangeOf`). That no result is outside comes from enclosure, and that the bounds are
results from the corners, each of which is a result on bounds of the operands. The bound of a
magnitude that is no corner is the magnitude of zero.

A quotient has no range where the divisor has values that count as zero; and there, and only there,
it is a fault.
-/

namespace ImplicitPlot

open Scalar ExactReal

namespace Interval

/-- The numbers in an interval. -/
def values (a : Interval ℝ) : Set ℝ := {v | a.Contains v}

/-- The interval is the smallest one around the results: it holds all of them, and its bounds are
two of them. -/
structure IsRangeOf (r : Interval ℝ) (results : Set ℝ) : Prop where
  isLeast : IsLeast results r.lower
  isGreatest : IsGreatest results r.upper

theorem isBounded_real (a : Interval ℝ) : a.IsBounded := ⟨isFinite _, isFinite _⟩

end Interval

variable {a b r : Interval ℝ}

/-! ## Operations on one interval -/

theorem UnaryOp.isRangeOf (op : UnaryOp) (ha : a.Valid) (h : op.onInterval a = .ok r) :
    r.IsRangeOf (op.onNumber '' a.values) := by
  have hinside : ∀ v ∈ a.values, r.Contains (op.onNumber v) := fun v hv ↦
    contains_onNumber a.isBounded_real hv h r.isBounded_real
  have hattained : r.lower ∈ op.onNumber '' a.values ∧ r.upper ∈ op.onNumber '' a.values := by
    cases op with
    | neg =>
      rw [Interval.eq_of_ofBounds h r.isBounded_real]
      have hmem : ∀ {v}, a.IsBound v → v ∈ a.values := ha.contains_of_isBound a.isBounded_real
      exact ⟨⟨_, hmem (.inr rfl), rfl⟩, _, hmem (.inl rfl), rfl⟩
    | abs =>
      obtain ⟨⟨v, hv, hlower⟩, w, hw, hupper⟩ := Interval.abs_bounds ha a.isBounded_real h
      exact ⟨⟨v, hv, agree_iff.mp hlower⟩, w, hw, agree_iff.mp hupper⟩
  refine ⟨⟨hattained.1, ?_⟩, hattained.2, ?_⟩
  · rintro _ ⟨v, hv, rfl⟩
    exact (hinside v hv).1
  · rintro _ ⟨v, hv, rfl⟩
    exact (hinside v hv).2

/-! ## Operations on two intervals -/

theorem BinaryOp.isRangeOf (op : BinaryOp) (hop : op ≠ .pow) (ha : a.Valid) (hb : b.Valid)
    {f : ℝ → ℝ → ℝ} (hf : ∀ v ∈ a.values, ∀ w ∈ b.values, op.onNumbers v w = .ok (f v w))
    (h : op.onIntervals a b = .ok r) : r.IsRangeOf (Set.image2 f a.values b.values) := by
  have hinside : ∀ v ∈ a.values, ∀ w ∈ b.values, r.Contains (f v w) := by
    intro v hv w hw
    obtain ⟨x, hx, hmem⟩ := exists_onNumbers a.isBounded_real b.isBounded_real (isFinite v)
      (isFinite w) hv hw (fun heq ↦ absurd heq hop) h r.isBounded_real
    cases hx.symm.trans (hf v hv w hw)
    exact hmem
  have hattained : ∀ u, op.IsCorner a b u → u ∈ Set.image2 f a.values b.values := by
    rintro u ⟨x, y, hx, hy, hu⟩
    have hx := ha.contains_of_isBound a.isBounded_real hx
    have hy := hb.contains_of_isBound b.isBounded_real hy
    cases hu.symm.trans (hf x hx y hy)
    exact ⟨x, hx, y, hy, rfl⟩
  obtain ⟨hlower, hupper⟩ := isCorner_bounds hop hb b.isBounded_real h r.isBounded_real
  refine ⟨⟨hattained _ hlower, ?_⟩, hattained _ hupper, ?_⟩
  · rintro _ ⟨v, hv, w, hw, rfl⟩
    exact (hinside v hv w hw).1
  · rintro _ ⟨v, hv, w, hw, rfl⟩
    exact (hinside v hv w hw).2

namespace Interval

/-- An interval touches the values that count as zero exactly if it has one of them. -/
theorem isZero_iff_nonempty (hb : b.Valid) :
    b.IsZero ↔ (b.values ∩ Set.Icc (-zeroTolerance) zeroTolerance).Nonempty := by
  have hle : b.lower ≤ b.upper := hb.lower_le_upper b.isBounded_real
  have htol : (0 : ℝ) < zeroTolerance := Lawful.zeroTolerance_pos
  constructor
  · rintro ⟨hlower, hupper⟩
    have hwidth : -zeroTolerance ≤ (zeroTolerance : ℝ) := by linarith
    -- The greater one of the two lower ends is in both ranges.
    exact ⟨max b.lower (-zeroTolerance), ⟨le_max_left _ _, max_le hle hupper⟩,
      le_max_right _ _, max_le hlower hwidth⟩
  · rintro ⟨w, hw, hlower, hupper⟩
    exact ⟨hw.1.trans hupper, hlower.trans hw.2⟩

/-- **Interval arithmetic is exact range arithmetic.** Over the real numbers, the negation, the
magnitude, the sum, the difference and the product of valid intervals succeed and give the range of
the results on their values, and so does the quotient if no value of the divisor counts as zero;
otherwise, and only then, the quotient is a fault. -/
theorem exact_ranges (a b : Interval ℝ) (ha : a.Valid) (hb : b.Valid) :
    (∃ r, a.neg = .ok r ∧ r.IsRangeOf ((fun v ↦ -v) '' a.values)) ∧
    (∃ r, a.abs = .ok r ∧ r.IsRangeOf ((fun v ↦ |v|) '' a.values)) ∧
    (∃ r, a.add b = .ok r ∧ r.IsRangeOf (Set.image2 (· + ·) a.values b.values)) ∧
    (∃ r, a.sub b = .ok r ∧ r.IsRangeOf (Set.image2 (· - ·) a.values b.values)) ∧
    (∃ r, a.mul b = .ok r ∧ r.IsRangeOf (Set.image2 (· * ·) a.values b.values)) ∧
    (¬(b.values ∩ Set.Icc (-zeroTolerance) zeroTolerance).Nonempty →
      ∃ r, a.div b = .ok r ∧ r.IsRangeOf (Set.image2 (· / ·) a.values b.values)) ∧
    (a.div b = .error .divisionByZero ↔
      (b.values ∩ Set.Icc (-zeroTolerance) zeroTolerance).Nonempty) := by
  have hba := a.isBounded_real
  have hbb := b.isBounded_real
  obtain ⟨neg, hneg⟩ := exists_neg ha
  obtain ⟨abs, habs⟩ := exists_abs ha
  obtain ⟨sum, hsum⟩ := exists_add ha hba hb hbb
  obtain ⟨difference, hdifference⟩ := exists_sub ha hba hb hbb
  obtain ⟨product, hproduct⟩ := exists_mul a b
  refine ⟨⟨neg, hneg, UnaryOp.isRangeOf .neg ha hneg⟩,
    ⟨abs, habs, UnaryOp.isRangeOf .abs ha habs⟩,
    ⟨sum, hsum, BinaryOp.isRangeOf .add nofun ha hb (fun _ _ _ _ ↦ rfl) hsum⟩,
    ⟨difference, hdifference,
      BinaryOp.isRangeOf .sub nofun ha hb (fun _ _ _ _ ↦ rfl) hdifference⟩,
    ⟨product, hproduct, BinaryOp.isRangeOf .mul nofun ha hb (fun _ _ _ _ ↦ rfl) hproduct⟩,
    ?_⟩
  rw [← isZero_iff_nonempty hb]
  refine ⟨fun hzero ↦ ?_, ?_⟩
  · obtain ⟨quotient, hquotient⟩ := exists_div (a := a) hzero
    have hclear := clear_of_not_isZero hbb hzero
    exact ⟨quotient, hquotient, BinaryOp.isRangeOf .div nofun ha hb
      (fun v _ w hw ↦ BinaryOp.onNumbers_div hw hclear) hquotient⟩
  · constructor
    · intro hfault
      by_contra hzero
      obtain ⟨quotient, hquotient⟩ := exists_div (a := a) hzero
      cases hfault.symm.trans hquotient
    · exact fun hzero ↦ if_pos hzero

/-- Values on both sides of zero, multiplied and divided by positive ones; and divided by values
around zero. -/
theorem exact_ranges_both_sides :
    (∃ r, (⟨-2, 1⟩ : Interval ℝ).mul ⟨3, 4⟩ = .ok r ∧
        r.IsRangeOf (Set.image2 (· * ·) (Set.Icc (-2) 1) (Set.Icc 3 4))) ∧
      (∃ r, (⟨-2, 1⟩ : Interval ℝ).div ⟨3, 4⟩ = .ok r ∧
        r.IsRangeOf (Set.image2 (· / ·) (Set.Icc (-2) 1) (Set.Icc 3 4))) ∧
      (⟨3, 4⟩ : Interval ℝ).div ⟨-2, 1⟩ = .error .divisionByZero := by
  have hleft : (⟨-2, 1⟩ : Interval ℝ).Valid := .inl (show (-2 : ℝ) ≤ 1 by norm_num)
  have hright : (⟨3, 4⟩ : Interval ℝ).Valid := .inl (show (3 : ℝ) ≤ 4 by norm_num)
  have htolerance : (zeroTolerance : ℝ) = 1e-9 := rfl
  have hpos : (0 : ℝ) < zeroTolerance := Lawful.zeroTolerance_pos
  obtain ⟨-, -, -, -, hmul, hdiv, -⟩ := exact_ranges ⟨-2, 1⟩ ⟨3, 4⟩ hleft hright
  obtain ⟨-, -, -, -, -, -, hfault⟩ := exact_ranges ⟨3, 4⟩ ⟨-2, 1⟩ hright hleft
  refine ⟨hmul, hdiv ?_, hfault.mpr ?_⟩
  · rintro ⟨w, hw, -, hle⟩
    have hthree : (3 : ℝ) ≤ w := hw.1
    rw [htolerance] at hle
    linarith
  · refine ⟨0, ⟨?_, ?_⟩, ?_, ?_⟩
    · exact show (-2 : ℝ) ≤ 0 by norm_num
    · exact show (0 : ℝ) ≤ 1 by norm_num
    · exact neg_nonpos.mpr hpos.le
    · exact hpos.le

end Interval

end ImplicitPlot
