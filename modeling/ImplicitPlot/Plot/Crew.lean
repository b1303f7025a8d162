import ImplicitPlot.Plot.Band
import ImplicitPlot.Plot.Bitmap
import ImplicitPlot.Plot.Plottable
import ImplicitPlot.Plot.View

/-!
# Crews

The workers that draw one image. Each worker has a context of its own and a band of the image, of
which it draws one pixel at a time; the image and the place for the first fault are shared. A
*schedule* is the order in which the workers take their turns, and any order is possible.

An arithmetic fault leaves its pixel as it was, and the worker goes on; any other fault ends the
work on the band.
-/

namespace ImplicitPlot

/-- A fault, and the least corner of the pixel where it arose. -/
structure FaultSite (α : Type) where
  fault : Fault α
  corner : Point α
deriving DecidableEq, Repr

/-- What the workers share. -/
structure Canvas (α : Type) where
  image : Bitmap
  firstFault : Option (FaultSite α)

namespace Canvas

variable {α : Type}

/-- A canvas on which nothing is drawn. -/
def blank (size : ImageSize) : Canvas α := ⟨.blank size.columns size.rows, none⟩

/-- Draws a pixel. -/
def paint (c : Canvas α) (place : Nat) (p : Pixel) : Canvas α :=
  ⟨c.image.set place p, c.firstFault⟩

/-- Notes a fault, unless one is noted already. -/
def report (c : Canvas α) (site : FaultSite α) : Canvas α :=
  ⟨c.image, c.firstFault <|> some site⟩

end Canvas

/-- What the interval for a pixel says about it. An interval without values says nothing. -/
def Pixel.classify {α : Type} [Scalar α] (a : Interval α) : Pixel :=
  if a.HasNaN then .incomplete else if a.IsZero then .curve else .empty

/-- A worker, with the place of the next pixel and the place after the last one, in the row-by-row
order of the image. -/
structure Worker (κ : Type) where
  context : κ
  next : Nat
  stop : Nat

/-- The interval for the pixel in a column and row. -/
def View.evaluate {φ α κ : Type} [Plottable φ α κ] [Scalar α] (v : View α) (f : φ)
    (column row : Nat) : EStateM (Fault α) κ (Interval α) := fun context ↦
  match v.pixelRect column row with
  | .ok (x, y) => Plottable.onRectangle f x y context
  | .error fault => .error fault context

namespace Worker

variable {φ α κ : Type} [Plottable φ α κ] [Scalar α]

/-- A worker before its first pixel. -/
def start (f : φ) (size : ImageSize) (band : Band) : Worker κ :=
  ⟨Plottable.newContext f, band.start * size.columns, band.stop * size.columns⟩

/-- The number of pixels that are left. -/
def remaining (w : Worker κ) : Nat := w.stop - w.next

/-- A turn of a worker: one pixel, as long as any are left. -/
def turn (f : φ) (v : View α) (w : Worker κ) (canvas : Canvas α) : Worker κ × Canvas α :=
  if w.next < w.stop then
    let column := w.next % v.size.columns
    let row := w.next / v.size.columns
    match v.evaluate f column row w.context with
    | .ok a context => (⟨context, w.next + 1, w.stop⟩, canvas.paint w.next (.classify a))
    | .error fault context =>
      (⟨context, if fault.isArithmetic then w.next + 1 else w.stop, w.stop⟩,
        canvas.report ⟨fault, v.pixelCorner column row⟩)
  else (w, canvas)

end Worker

/-- The workers of an image, and what they share. -/
structure Crew (α κ : Type) where
  workers : Array (Worker κ)
  canvas : Canvas α

namespace Crew

variable {φ α κ : Type} [Plottable φ α κ] [Scalar α]

/-- A crew with one worker for each band. -/
def start (f : φ) (size : ImageSize) (bands : List Band) : Crew α κ :=
  ⟨(bands.map (Worker.start f size)).toArray, .blank size⟩

/-- A turn of the worker with the given number. -/
def turn (f : φ) (v : View α) (crew : Crew α κ) (i : Nat) : Crew α κ :=
  match crew with
  | ⟨workers, canvas⟩ =>
    match workers[i]? with
    | some w =>
      let (w, canvas) := w.turn f v canvas
      ⟨workers.setIfInBounds i w, canvas⟩
    | none => ⟨workers, canvas⟩

/-- The turns of a schedule, in order. -/
def run (f : φ) (v : View α) (crew : Crew α κ) (schedule : List Nat) : Crew α κ :=
  schedule.foldl (turn f v) crew

/-- The schedule in which each worker finishes before the next one starts. -/
def inTurn (crew : Crew α κ) : List Nat :=
  crew.workers.toList.zipIdx.flatMap fun (w, i) ↦ List.replicate w.remaining i

end Crew

end ImplicitPlot
