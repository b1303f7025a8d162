/-!
# Stacks

A stack in a fixed row of slots. Taking a value off leaves it in its slot, and emptying the stack
leaves all of them, so a slot at or above the height may hold a value of an earlier use.
-/

namespace ImplicitPlot

/-- A stack that fills the first slots of a row. -/
structure Stack (β : Type) where
  slots : Array β
  height : Nat
  height_le : height ≤ slots.size := by simp

namespace Stack

variable {β : Type}

/-- The number of slots. -/
abbrev capacity (s : Stack β) : Nat := s.slots.size

/-- An empty stack with the given number of slots, all with the same content. -/
def empty (capacity : Nat) (filler : β) : Stack β := ⟨Array.replicate capacity filler, 0, by simp⟩

/-- Empties the stack, and adds slots until there are at least as many as asked for. -/
def reset (s : Stack β) (capacity : Nat) (filler : β) : Stack β :=
  ⟨s.slots ++ Array.replicate (capacity - s.slots.size) filler, 0, by simp⟩

/-- The value on top. -/
def top (s : Stack β) (h : 0 < s.height) : β :=
  have : s.height - 1 < s.slots.size := by have := s.height_le; omega
  s.slots[s.height - 1]

/-- Puts a value on top. -/
def push (s : Stack β) (b : β) (h : s.height < s.capacity) : Stack β :=
  ⟨s.slots.set s.height b h, s.height + 1, by rw [Array.size_set]; exact h⟩

/-- Takes the top value off. -/
def drop (s : Stack β) : Stack β := ⟨s.slots, s.height - 1, by have := s.height_le; omega⟩

/-- Exchanges the two top values. -/
def swap (s : Stack β) (h : 2 ≤ s.height) : Stack β :=
  have := s.height_le
  ⟨s.slots.swap (s.height - 1) (s.height - 2) (by omega) (by omega), s.height, by simpa⟩

/-- The values on the stack, the top one first. -/
def toList (s : Stack β) : List β := (s.slots.toList.take s.height).reverse

end Stack

end ImplicitPlot
