/-!
# Words

Sums and products of sixty-four-bit words. One that needs more bits is refused.
-/

namespace ImplicitPlot.Word

/-- The number of values of a word. -/
def count : Nat := UInt64.size

/-- The most bytes that can be asked for at once. -/
def maxBytes : Nat := count / 2 - 1

theorem maxBytes_lt_count : maxBytes < count := by decide

/-- A sum that fits a word. -/
def sum? (a b : Nat) : Option Nat := if a + b < count then some (a + b) else none

/-- A product that fits a word. -/
def product? (a b : Nat) : Option Nat := if a * b < count then some (a * b) else none

variable {a b c : Nat}

@[simp] theorem sum?_eq_some_iff : sum? a b = some c ↔ a + b < count ∧ a + b = c := by
  rw [sum?, Option.ite_none_right_eq_some, Option.some.injEq]

@[simp] theorem sum?_eq_none_iff : sum? a b = none ↔ count ≤ a + b := by
  rw [sum?, ite_eq_right_iff, ← Nat.not_lt]
  exact forall_congr' fun _ ↦ iff_of_false nofun id

@[simp] theorem product?_eq_some_iff : product? a b = some c ↔ a * b < count ∧ a * b = c := by
  rw [product?, Option.ite_none_right_eq_some, Option.some.injEq]

@[simp] theorem product?_eq_none_iff : product? a b = none ↔ count ≤ a * b := by
  rw [product?, ite_eq_right_iff, ← Nat.not_lt]
  exact forall_congr' fun _ ↦ iff_of_false nofun id

end ImplicitPlot.Word
