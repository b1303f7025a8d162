import ImplicitPlot.Formula.Point
import ImplicitPlot.Machine.Execute

/-!
# What can be drawn

A plottable thing gives an interval for each rectangle of the plane, and a pixel shows the curve
when that interval touches zero. A program gives an interval around all values over the rectangle;
a predicate is sampled at the centre only, so that details between the samples may be missed.
-/

namespace ImplicitPlot

/-- A thing of type `φ` can be drawn, with a state of type `κ` that is kept from pixel to pixel. -/
class Plottable (φ : Type) (α κ : outParam Type) where
  /-- The state before the first pixel. -/
  newContext : φ → κ
  /-- The interval for a rectangle. -/
  onRectangle : φ → Interval α → Interval α → EStateM (Fault α) κ (Interval α)

instance {α : Type} [Scalar α] : Plottable (Program α) α (Context α) where
  newContext := Program.newContext
  onRectangle := Program.executeOver

/-- A test of points. -/
structure Predicate (α : Type) where
  test : α → α → Bool

namespace Predicate

variable {α : Type} [Scalar α]

/-- The interval for a rectangle: zero if its centre passes the test, otherwise one. -/
def onRectangle (p : Predicate α) (x y : Interval α) : Interval α :=
  if p.test x.midpoint y.midpoint then .point 0 else .point 1

/-- The points at which a formula has a value that is not positive, all variables other than the
coordinates being zero. -/
def nonpositive (e : Expr α) : Predicate α where
  test x y :=
    match e.atPoint (fun v ↦ if v = .x then x else if v = .y then y else 0) with
    | .ok value => value ≤ 0
    | .error _ => false

end Predicate

instance {α : Type} [Scalar α] : Plottable (Predicate α) α Unit where
  newContext _ := ()
  onRectangle p x y := pure (p.onRectangle x y)

end ImplicitPlot
