import ImplicitPlot.Fault
import ImplicitPlot.Scalar

/-!
# Intervals

A closed range of numbers, kept by its two bounds. The bounds are computed with rounding and may
overflow, so the type admits any pair; an interval is `Valid` when its bounds are in order or both
are not numbers. `checked` is the only way in which an operation puts two computed bounds
together, and it refuses a pair that is not valid.
-/

namespace ImplicitPlot

/-- A closed range, by its bounds. -/
structure Interval (α : Type) where
  lower : α
  upper : α
deriving DecidableEq, Repr

namespace Interval

variable {α : Type} [Scalar α]

open Scalar

/-- The bounds are in order, or there is no value at all. -/
def Valid (a : Interval α) : Prop :=
  a.lower ≤ a.upper ∨ IsNaN a.lower ∧ IsNaN a.upper

instance (a : Interval α) : Decidable a.Valid :=
  inferInstanceAs (Decidable (_ ∨ _ ∧ _))

/-- The interval of a single value. -/
def point (v : α) : Interval α := ⟨v, v⟩

/-- The interval without values. -/
def undefined : Interval α := point nan

/-- The interval with the given bounds, which have to be valid. -/
def checked (lower upper : α) : Except (Fault α) (Interval α) :=
  if Valid ⟨lower, upper⟩ then .ok ⟨lower, upper⟩ else .error (.invalidBounds lower upper)

/-- The interval with computed bounds: there are no values if either bound is not a number. -/
def ofBounds (lower upper : α) : Except (Fault α) (Interval α) :=
  if IsNaN lower ∨ IsNaN upper then .ok undefined else checked lower upper

/-! ## What an interval holds -/

/-- The value lies between the bounds. -/
def Contains (a : Interval α) (v : α) : Prop := a.lower ≤ v ∧ v ≤ a.upper

instance (a : Interval α) (v : α) : Decidable (a.Contains v) :=
  inferInstanceAs (Decidable (_ ∧ _))

/-- A bound is not a number. -/
def HasNaN (a : Interval α) : Prop := IsNaN a.lower ∨ IsNaN a.upper

instance (a : Interval α) : Decidable a.HasNaN :=
  inferInstanceAs (Decidable (_ ∨ _))

/-- The bounds are the same number. -/
def IsPoint (a : Interval α) : Prop := Agree a.lower a.upper

instance (a : Interval α) : Decidable a.IsPoint :=
  inferInstanceAs (Decidable (Agree _ _))

/-- The interval touches the values that count as zero. -/
def IsZero (a : Interval α) : Prop :=
  a.lower ≤ zeroTolerance ∧ -zeroTolerance ≤ a.upper

instance (a : Interval α) : Decidable a.IsZero :=
  inferInstanceAs (Decidable (_ ∧ _))

/-- The single integer that the interval stands for, if both bounds are that close to one. -/
def asInteger? (a : Interval α) : Option α :=
  let k := round a.lower
  if a.upper - a.lower ≤ zeroTolerance ∧ Scalar.abs (a.lower - k) ≤ zeroTolerance ∧
      Scalar.abs (a.upper - k) ≤ zeroTolerance then
    some k
  else none

/-- The value halfway between the bounds. -/
def midpoint (a : Interval α) : α := (a.lower + a.upper) / 2.0

/-- The distance between the bounds. -/
def width (a : Interval α) : α := a.upper - a.lower

end Interval

end ImplicitPlot
