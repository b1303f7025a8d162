import ImplicitPlot.Plot.Region
import ImplicitPlot.Proofs.Scalar.Laws

/-!
# Orders of coordinates

What is asked of the order that sorts the coordinates of two corners. Of two numbers it gives the
lesser and the greater one (`CornerOrder.Sorts`). The lower coordinate is never above the higher
one, unless it is not a number (`CornerOrder.Ascends`); for most statements about regions this is
enough. What becomes of a coordinate that is not a number is another matter. Sorting by comparisons,
which fail for it, gives the second coordinate twice (`CornerOrder.TakesSecond`).
-/

namespace ImplicitPlot.CornerOrder

variable {α : Type} [Scalar α]

open Scalar (Agree IsNaN Lawful)

/-- Of two numbers, the lower coordinate is the lesser one, and the higher one is the greater
one. -/
structure Sorts (order : CornerOrder α) : Prop where
  lower_eq_or {a b : α} : ¬IsNaN a → ¬IsNaN b → order.lower a b = a ∨ order.lower a b = b
  lower_le {a b : α} : ¬IsNaN a → ¬IsNaN b → order.lower a b ≤ a ∧ order.lower a b ≤ b
  higher_eq_or {a b : α} : ¬IsNaN a → ¬IsNaN b → order.higher a b = a ∨ order.higher a b = b
  le_higher {a b : α} : ¬IsNaN a → ¬IsNaN b → a ≤ order.higher a b ∧ b ≤ order.higher a b

/-- The lower coordinate is not above the higher one, if it is a number. -/
def Ascends (order : CornerOrder α) : Prop :=
  ∀ a b, ¬IsNaN (order.lower a b) → order.lower a b ≤ order.higher a b

/-- Of two coordinates of which one is not a number, the second one is taken for both. -/
def TakesSecond (order : CornerOrder α) : Prop :=
  ∀ a b, IsNaN a ∨ IsNaN b → order.lower a b = b ∧ order.higher a b = b

/-- Two coordinates that are in order keep their sizes. -/
theorem Sorts.agree {order : CornerOrder α} (h : order.Sorts) [Lawful α] {a b : α} (hab : a ≤ b) :
    Agree (order.lower a b) a ∧ Agree (order.higher a b) b := by
  obtain ⟨ha, hb⟩ := Lawful.not_isNaN_of_le hab
  refine ⟨⟨(h.lower_le ha hb).1, ?_⟩, ?_, (h.le_higher ha hb).2⟩
  · rcases h.lower_eq_or ha hb with heq | heq <;> rw [heq]
    · exact not_not.mp ha
    · exact hab
  · rcases h.higher_eq_or ha hb with heq | heq <;> rw [heq]
    · exact hab
    · exact not_not.mp hb

theorem Sorts.agree_of_ge {order : CornerOrder α} (h : order.Sorts) [Lawful α] {a b : α}
    (hba : b ≤ a) : Agree (order.lower a b) b ∧ Agree (order.higher a b) a := by
  obtain ⟨hb, ha⟩ := Lawful.not_isNaN_of_le hba
  refine ⟨⟨(h.lower_le ha hb).2, ?_⟩, ?_, (h.le_higher ha hb).1⟩
  · rcases h.lower_eq_or ha hb with heq | heq <;> rw [heq]
    · exact hba
    · exact not_not.mp hb
  · rcases h.higher_eq_or ha hb with heq | heq <;> rw [heq]
    · exact not_not.mp ha
    · exact hba

/-! ## Comparisons -/

theorem comparing_ascends : (comparing : CornerOrder α).Ascends := by
  intro a b
  simp only [comparing]
  intro hnumber
  by_cases hab : a ≤ b
  · rw [if_pos hab] at hnumber ⊢
    split
    · exact not_not.mp hnumber
    · exact hab
  · rw [if_neg hab] at hnumber ⊢
    split
    · assumption
    · exact not_not.mp hnumber

section Comparing

variable [Lawful α]

theorem comparing_sorts : (comparing : CornerOrder α).Sorts where
  lower_eq_or _ _ := by
    rw [comparing]
    exact ite_eq_or_eq _ _ _
  lower_le {a b} ha hb := by
    simp only [comparing]
    split
    next h => exact ⟨not_not.mp ha, h⟩
    next h => exact ⟨(Lawful.le_total ha hb).resolve_left h, not_not.mp hb⟩
  higher_eq_or _ _ := by
    rw [comparing]
    exact ite_eq_or_eq _ _ _
  le_higher {a b} ha hb := by
    simp only [comparing]
    split
    next h => exact ⟨not_not.mp ha, h⟩
    next h => exact ⟨(Lawful.le_total ha hb).resolve_right h, not_not.mp hb⟩

theorem comparing_takesSecond : (comparing : CornerOrder α).TakesSecond := by
  intro a b h
  constructor
  · refine if_neg fun hle ↦ ?_
    obtain ⟨ha, hb⟩ := Lawful.not_isNaN_of_le hle
    exact h.elim ha hb
  · refine if_neg fun hle ↦ ?_
    obtain ⟨hb, ha⟩ := Lawful.not_isNaN_of_le hle
    exact h.elim ha hb

end Comparing

end ImplicitPlot.CornerOrder
