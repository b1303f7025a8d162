import ImplicitPlot.Scalar

/-!
# Regions of the plane

An upright rectangle, kept by its least and greatest corner, and given by any two opposite ones.
These are sorted along each axis, by an order of coordinates that is a parameter: of two numbers it
gives the lesser and the greater one, and what it gives of values that are not comparable is up to
the order.
-/

namespace ImplicitPlot

/-- A point of the plane, or a distance along each axis. -/
structure Point (α : Type) where
  x : α
  y : α
deriving DecidableEq, Repr

/-- An upright rectangle. -/
structure Region (α : Type) where
  min : Point α
  max : Point α
deriving DecidableEq, Repr

/-- How the coordinates of two corners are sorted. -/
structure CornerOrder (α : Type) where
  /-- The lower one of two coordinates. -/
  lower : α → α → α
  /-- The higher one of two coordinates. -/
  higher : α → α → α

/-- Sorting by comparisons: the first coordinate is taken on a tie, and the second one if the two
are not comparable. -/
def CornerOrder.comparing {α : Type} [Scalar α] : CornerOrder α where
  lower a b := if a ≤ b then a else b
  higher a b := if b ≤ a then a else b

namespace Region

variable {α : Type} [Scalar α]

/-- The region with two given opposite corners. -/
def ofCorners (order : CornerOrder α) (a b : Point α) : Region α :=
  ⟨⟨order.lower a.x b.x, order.lower a.y b.y⟩, ⟨order.higher a.x b.x, order.higher a.y b.y⟩⟩

/-- The region that is drawn unless another one is asked for. -/
def default (order : CornerOrder α) : Region α :=
  ofCorners order ⟨-10.0, -10.0⟩ ⟨10.0, 10.0⟩

/-- The width and height. -/
def size (r : Region α) : Point α := ⟨r.max.x - r.min.x, r.max.y - r.min.y⟩

/-- Both coordinates are finite. -/
def Bounded (p : Point α) : Prop := Scalar.IsFinite p.x ∧ Scalar.IsFinite p.y

instance (p : Point α) : Decidable (Bounded p) := inferInstanceAs (Decidable (_ ∧ _))

/-- The corners are finite, and so are the width and height. -/
def IsFinite (r : Region α) : Prop := Bounded r.min ∧ Bounded r.max ∧ Bounded r.size

instance (r : Region α) : Decidable r.IsFinite := inferInstanceAs (Decidable (_ ∧ _ ∧ _))

end Region

end ImplicitPlot
