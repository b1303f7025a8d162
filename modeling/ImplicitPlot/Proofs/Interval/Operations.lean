import ImplicitPlot.Formula.Point
import ImplicitPlot.Machine.Instruction
import ImplicitPlot.Proofs.Interval.PowerEnclosure

/-!
# Operations enclose their results on numbers

The operations of formulas, on numbers and on intervals: one that succeeds on intervals succeeds on
numbers in them, and encloses the result. The exponent of a power is one integer.
-/

namespace ImplicitPlot

variable {α : Type} [Scalar α] [Scalar.Lawful α] {a b r : Interval α} {v w k : α}

open Scalar

theorem BinaryOp.onNumbers_pow (hk : Interval.IsIntegral k) (v : α) :
    BinaryOp.pow.onNumbers v k = .ok (Scalar.pow v k) := by
  rw [onNumbers, hk.round_eq, if_neg (not_lt_of_le (abs_sub_self_le hk.isFinite)), ite_self]

theorem BinaryOp.onNumbers_div (hw : b.Contains w)
    (hclear : zeroTolerance < b.lower ∨ b.upper < -zeroTolerance) :
    BinaryOp.div.onNumbers v w = .ok (v / w) := by
  rw [onNumbers, if_neg]
  intro hle
  have hpos : (0 : α) ≤ zeroTolerance := le_of_lt Lawful.zeroTolerance_pos
  rcases hclear with hlower | hupper
  · have hw' : zeroTolerance < w := lt_of_lt_of_le hlower hw.1
    obtain ⟨-, hge⟩ := Lawful.abs_of_nonneg (Lawful.le_trans hpos (le_of_lt hw'))
    exact not_le_of_lt hw' (Lawful.le_trans hge hle)
  · have hw' : w < -zeroTolerance := lt_of_le_of_lt hw.2 hupper
    obtain ⟨-, hge⟩ := Lawful.abs_of_nonpos
      (le_of_lt (lt_of_lt_of_le hw' (le_of_lt neg_zeroTolerance_neg)))
    have hlt : zeroTolerance < -w := by
      rw [← Lawful.neg_neg zeroTolerance]
      exact neg_lt_neg_iff.mpr hw'
    exact not_le_of_lt hlt (Lawful.le_trans hge hle)

theorem UnaryOp.contains_onNumber {op : UnaryOp} (ha : a.IsBounded) (hv : a.Contains v)
    (h : op.onInterval a = .ok r) (hr : r.IsBounded) : r.Contains (op.onNumber v) := by
  cases op with
  | neg => exact Interval.contains_neg hv h hr
  | abs => exact Interval.contains_abs ha hv h

/-- An operation that succeeds on intervals succeeds on numbers in them, and encloses the result. -/
theorem BinaryOp.exists_onNumbers [OrderPreserving α] {op : BinaryOp} (ha : a.IsBounded)
    (hb : b.IsBounded) (hfv : IsFinite v) (hfw : IsFinite w) (hv : a.Contains v)
    (hw : b.Contains w) (hpow : op = .pow → b = .point w ∧ Interval.IsIntegral w)
    (h : op.onIntervals a b = .ok r) (hr : r.IsBounded) :
    ∃ x, op.onNumbers v w = .ok x ∧ r.Contains x := by
  cases op with
  | add => exact ⟨_, rfl, Interval.contains_add ha hb hfv hfw hv hw h hr⟩
  | sub => exact ⟨_, rfl, Interval.contains_sub ha hb hfv hfw hv hw h hr⟩
  | mul => exact ⟨_, rfl, Interval.contains_mul ha hb hfv hfw hv hw h hr⟩
  | div =>
    have hzero : ¬b.IsZero := by
      intro hzero
      rw [onIntervals, Interval.div, if_pos hzero] at h
      cases h
    have hclear := Interval.clear_of_not_isZero hb hzero
    have hsign : 0 < b.lower ∨ b.upper < 0 :=
      hclear.imp (fun hlt ↦ lt_of_le_of_lt (le_of_lt Lawful.zeroTolerance_pos) hlt)
        fun hlt ↦ lt_of_lt_of_le hlt (le_of_lt neg_zeroTolerance_neg)
    exact ⟨_, onNumbers_div hw hclear, Interval.contains_div ha hb hfv hfw hv hw h hr hsign⟩
  | pow =>
    obtain ⟨rfl, hk⟩ := hpow rfl
    exact ⟨_, onNumbers_pow hk v, Interval.contains_pow ha hfv hk hv h hr⟩

end ImplicitPlot
