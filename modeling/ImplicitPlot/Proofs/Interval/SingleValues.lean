import ImplicitPlot.Machine.Instruction
import ImplicitPlot.Proofs.Scalar.Laws

/-!
# Operations on single values

An operation on intervals of a single value gives an interval of a single value: the bounds of the
result are computed in the same way. The two bounds are the same here, not only numbers of equal
size as in `Interval.IsPoint`.
-/

namespace ImplicitPlot

variable {α : Type} [Scalar α] {a b r : Interval α}

open Scalar

namespace Interval

/-- The interval is that of one value. -/
def IsSingle (a : Interval α) : Prop := ∃ v, a = point v

theorem isSingle_of_checked {v : α} (h : checked v v = .ok r) : r.IsSingle := by
  rw [checked] at h
  split at h
  · cases h
    exact ⟨v, rfl⟩
  · cases h

theorem isSingle_of_ofBounds {v : α} (h : ofBounds v v = .ok r) : r.IsSingle := by
  rw [ofBounds] at h
  split at h
  · cases h
    exact ⟨nan, rfl⟩
  · exact isSingle_of_checked h

theorem isSingle_of_overCorners {f : α → α → α} (ha : a.IsSingle) (hb : b.IsSingle)
    (h : overCorners f a b = .ok r) : r.IsSingle := by
  obtain ⟨v, rfl⟩ := ha
  obtain ⟨w, rfl⟩ := hb
  simp only [overCorners, point, minNum_self, maxNum_self] at h
  split at h
  · cases h
    exact ⟨nan, rfl⟩
  · exact isSingle_of_checked h

theorem isSingle_of_ite_hasNaN {x : Except (Fault α) (Interval α)}
    (h : (if a.HasNaN ∨ b.HasNaN then .ok undefined else x) = .ok r)
    (hx : x = .ok r → r.IsSingle) : r.IsSingle := by
  split at h
  · cases h
    exact ⟨nan, rfl⟩
  · exact hx h

theorem isSingle_of_mul (ha : a.IsSingle) (hb : b.IsSingle) (h : a.mul b = .ok r) : r.IsSingle :=
  isSingle_of_ite_hasNaN h (isSingle_of_overCorners ha hb)

variable [Lawful α]

/-- A single value is not on both sides of zero. -/
theorem IsSingle.not_straddling (ha : a.IsSingle) : ¬(a.lower < 0 ∧ 0 < a.upper) := by
  obtain ⟨v, rfl⟩ := ha
  exact fun h ↦ not_lt_of_le (le_of_lt h.1) h.2

theorem isSingle_of_abs (ha : a.IsSingle) (h : a.abs = .ok r) : r.IsSingle := by
  have hside := ha.not_straddling
  obtain ⟨v, rfl⟩ := ha
  rw [abs] at h
  split at h
  next hneg =>
    rw [if_neg fun hpos ↦ hside ⟨hneg, hpos⟩] at h
    exact isSingle_of_checked h
  next =>
    cases h
    exact ⟨v, rfl⟩

theorem isSingle_of_pow (ha : a.IsSingle) (hb : b.IsSingle) (h : a.pow b = .ok r) :
    r.IsSingle := by
  refine isSingle_of_ite_hasNaN h fun h ↦ ?_
  split at h
  · cases h
  rw [if_neg ha.not_straddling] at h
  split at h
  · exact isSingle_of_overCorners ha hb h
  · obtain ⟨v, rfl⟩ := ha
    rw [powNonpositive] at h
    split at h
    · cases h
    · -- Whichever bound is taken first, it is the same one.
      simp only [point, ite_self, minNum_self, maxNum_self] at h
      exact isSingle_of_ofBounds h

end Interval

variable [Lawful α]

theorem UnaryOp.isSingle_of_onInterval {op : UnaryOp} (ha : a.IsSingle)
    (h : op.onInterval a = .ok r) : r.IsSingle := by
  cases op with
  | neg =>
    obtain ⟨v, rfl⟩ := ha
    exact Interval.isSingle_of_ofBounds h
  | abs => exact Interval.isSingle_of_abs ha h

/-- **Single values give single values**, whatever the operation. -/
theorem BinaryOp.isSingle_of_onIntervals {op : BinaryOp} (ha : a.IsSingle) (hb : b.IsSingle)
    (h : op.onIntervals a b = .ok r) : r.IsSingle := by
  cases op with
  | add | sub =>
    obtain ⟨v, rfl⟩ := ha
    obtain ⟨w, rfl⟩ := hb
    exact Interval.isSingle_of_ofBounds h
  | mul => exact Interval.isSingle_of_mul ha hb h
  | div =>
    rw [onIntervals, Interval.div] at h
    split at h
    · cases h
    · exact Interval.isSingle_of_ite_hasNaN h (Interval.isSingle_of_overCorners ha hb)
  | pow => exact Interval.isSingle_of_pow ha hb h

end ImplicitPlot
