import Mathlib

/-!
# Nearest integers

Rounding to the nearest integer over any ordered field in which numbers have integer parts: a half
goes away from zero, and the sign is kept. Exact numbers, rational and real ones, are rounded in
this way.
-/

namespace ImplicitPlot.Exact

variable {K : Type} [Field K] [LinearOrder K] [IsStrictOrderedRing K] [FloorRing K]

/-- The nearest integer, a half going away from zero. -/
def nearest (a : K) : ℤ := if 0 ≤ a then ⌊a + 1 / 2⌋ else -⌊-a + 1 / 2⌋

theorem nearest_neg (a : K) : nearest (-a) = -nearest a := by
  rcases lt_trichotomy a 0 with h | rfl | h
  · have hpos : 0 ≤ -a := by linarith
    rw [nearest, nearest, if_pos hpos, if_neg (not_le.mpr h), neg_neg]
  · norm_num [nearest]
  · have hneg : ¬0 ≤ -a := by linarith
    rw [nearest, nearest, if_neg hneg, if_pos h.le, neg_neg]

theorem nearest_eq {a : K} {n : ℤ} (h : |a - n| < 1 / 2) : nearest a = n := by
  obtain ⟨hlower, hupper⟩ := abs_lt.mp h
  rw [nearest]
  split
  · exact Int.floor_eq_iff.mpr ⟨by linarith, by linarith⟩
  · have hfloor : ⌊-a + 1 / 2⌋ = -n := by
      refine Int.floor_eq_iff.mpr ⟨?_, ?_⟩ <;> push_cast <;> linarith
    rw [hfloor, neg_neg]

@[simp] theorem nearest_intCast (n : ℤ) : nearest (n : K) = n := by
  refine nearest_eq ?_
  rw [sub_self, abs_zero]
  norm_num

/-- The half of an integer is an integer exactly if the integer is even. -/
theorem half_eq_nearest_iff (n : ℤ) : (n : K) / 2 = nearest ((n : K) / 2) ↔ Even n := by
  constructor
  · intro h
    refine ⟨nearest ((n : K) / 2), ?_⟩
    have hdouble : (n : K) = (nearest ((n : K) / 2) + nearest ((n : K) / 2) : ℤ) := by
      push_cast
      linarith
    exact_mod_cast hdouble
  · rintro ⟨m, rfl⟩
    have hhalf : ((m + m : ℤ) : K) / 2 = m := by
      push_cast
      ring
    rw [hhalf, nearest_intCast]

end ImplicitPlot.Exact
