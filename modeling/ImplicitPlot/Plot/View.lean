import ImplicitPlot.Interval
import ImplicitPlot.Plot.Region

/-!
# Views

How the pixels of an image lie on a region: columns run along the first coordinate, and rows along
the second one, in either direction. The bounds of a pixel are computed anew from the region for
each pixel, and in the same way as those of its neighbours.
-/

namespace ImplicitPlot

/-- The number of columns and rows of an image. -/
structure ImageSize where
  width : UInt32
  height : UInt32
deriving DecidableEq, Repr

namespace ImageSize

/-- A square image. -/
def square (side : UInt32) : ImageSize := ⟨side, side⟩

/-- The number of columns. -/
def columns (s : ImageSize) : Nat := s.width.toNat

/-- The number of rows. -/
def rows (s : ImageSize) : Nat := s.height.toNat

/-- The image has no pixels. -/
def IsEmpty (s : ImageSize) : Prop := s.columns = 0 ∨ s.rows = 0

instance (s : ImageSize) : Decidable s.IsEmpty := inferInstanceAs (Decidable (_ ∨ _))

end ImageSize

/-- The direction in which the second coordinate grows. -/
inductive YAxis
  /-- The first row is at the top of the region. -/
  | up
  /-- The first row is at the bottom of the region. -/
  | down
deriving DecidableEq, Repr

/-- An image over a region. -/
structure View (α : Type) where
  region : Region α
  size : ImageSize
  yAxis : YAxis
deriving DecidableEq, Repr

namespace View

variable {α : Type} [Scalar α]

/-- The width and height of a pixel. -/
def pixelSize (v : View α) : Point α :=
  ⟨v.region.size.x / (v.size.columns : α), v.region.size.y / (v.size.rows : α)⟩

/-- The bounds of a column. -/
def columnBounds (v : View α) (column : Nat) : α × α :=
  let left := v.region.min.x
  let step := v.pixelSize.x
  (left + (column : α) * step, left + ((column : α) + 1) * step)

/-- The bounds of a row. -/
def rowBounds (v : View α) (row : Nat) : α × α :=
  let step := v.pixelSize.y
  match v.yAxis with
  | .down =>
    let bottom := v.region.min.y
    (bottom + (row : α) * step, bottom + ((row : α) + 1) * step)
  | .up =>
    let top := v.region.max.y
    (top - ((row : α) + 1) * step, top - (row : α) * step)

/-- The least corner of a pixel. -/
def pixelCorner (v : View α) (column row : Nat) : Point α :=
  ⟨(v.columnBounds column).1, (v.rowBounds row).1⟩

/-- The rectangle that a pixel covers. -/
def pixelRect (v : View α) (column row : Nat) :
    Except (Fault α) (Interval α × Interval α) := do
  let x ← Interval.checked (v.columnBounds column).1 (v.columnBounds column).2
  let y ← Interval.checked (v.rowBounds row).1 (v.rowBounds row).2
  return (x, y)

end View

end ImplicitPlot
