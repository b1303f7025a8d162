import ImplicitPlot.Proofs.Formula.Enclosure
import ImplicitPlot.Proofs.Plot.PixelMap
import ImplicitPlot.Proofs.Scalar.RoundedPower

/-!
# Empty pixels

The curve of a formula does not meet an empty pixel. The interval that makes a pixel empty comes
from the program of the formula, run over the rectangle of the pixel, with all variables other than
the coordinates at zero; they stay so in the contexts of all workers. That interval encloses the
values of the formula in the pixel and is clear of zero.
-/

namespace ImplicitPlot

variable {α : Type} [Scalar α]

open Scalar

/-- The formula of the circle of radius one, with an exponent of either sign. -/
def unitCircle : Expr α :=
  .binary .sub
    (.binary .add (.binary .pow (.var .x) (.const 2.0))
      (.binary .div (.const 1) (.binary .pow (.var .y) (.unary .neg (.const 2.0)))))
    (.const 1)

theorem unitCircle_hasIntegralExponents (h : round (2.0 : α) = 2.0) :
    (unitCircle : Expr α).HasIntegralExponents :=
  ⟨⟨⟨trivial, trivial, fun _ ↦ h⟩, ⟨trivial, ⟨trivial, trivial, fun _ ↦ h⟩, nofun⟩, nofun⟩,
    trivial, nofun⟩

/-! ## Programs over rectangles -/

/-- The values of the variables at a point of the plane. -/
def atCoordinates (x y : α) (v : Variable) : α := if v = .x then x else if v = .y then y else 0

namespace Program

theorem keeps_othersZero (p : Program α) (v : View α) : v.Keeps p Context.OthersZero where
  newContext := Context.othersZero_new _
  contextAfter column row c h := by
    rw [contextAfter_eq]
    split
    · exact othersZero_after_executeOver p _ _ h
    · exact h

/-- The interval for a pixel is that of the formula over the rectangle of the pixel. -/
theorem onIntervals_of_evaluate {e : Expr α} {v : View α} {c c' : Context α} {a x y : Interval α}
    {column row : Nat} (h : c.OthersZero) (hrect : v.pixelRect column row = .ok (x, y))
    (he : v.evaluate (compileDirect e) column row c = .ok a c') :
    e.onIntervals (overRectangle x y) = .ok a := by
  rw [View.evaluate, hrect] at he
  have hout := outcome_compileDirect e ((c.assign .x x).assign .y y)
  rw [h.lookup_assign_coordinates] at hout
  have hrun : (compileDirect e).execute ((c.assign .x x).assign .y y) = .ok a c' := he
  rw [← hout, Evaluation.outcome, hrun]

end Program

/-! ## Empty pixels -/

section Empty

variable [Lawful α]

theorem atCoordinates_mem {x y : α} {X Y : Interval α} (hx : X.Contains x) (hy : Y.Contains y)
    (v : Variable) : (overRectangle X Y v).Contains (atCoordinates x y v) := by
  rw [overRectangle, atCoordinates]
  split
  · exact hx
  split
  · exact hy
  · have hzero : (0 : α) ≤ 0 := not_not.mp not_isNaN_zero
    exact ⟨hzero, hzero⟩

theorem Interval.IsZero.of_contains {a : Interval α} {v : α} (hv : a.Contains v)
    (hlower : -zeroTolerance ≤ v) (hupper : v ≤ zeroTolerance) : a.IsZero :=
  ⟨Lawful.le_trans hv.1 hupper, Lawful.le_trans hlower hv.2⟩

variable [OrderPreserving α]

/-- **No point of the curve is missed.** A run of the direct program that succeeds encloses the
values of the formula, which exist, at all points of the intervals. So an empty pixel of a picture,
drawn by any schedule, contains no point at which the formula has a value that counts as zero. -/
theorem no_curve_point_missed (e : Expr α) (he : e.HasIntegralExponents) :
    (∀ (c : Context α) (p : Variable → α) (a : Interval α),
      (∀ v, (c.lookup v).Contains (p v)) → e.StaysFinite c.lookup p →
      (Program.compileDirect e).execute.outcome c = .ok a →
      ∃ v, e.atPoint p = .ok v ∧ a.Contains v) ∧
    ∀ (pools : PoolBuilder) (schedule : Crew α (Context α) → List Nat) (s : RenderSettings α)
      (image : Bitmap) (column row : Nat) (X Y : Interval α) (x y : α),
      renderBy pools schedule (Program.compileDirect e) s = .ok image →
      image.get? column row = some .empty → s.view.pixelRect column row = .ok (X, Y) →
      X.Contains x → Y.Contains y → e.StaysFinite (overRectangle X Y) (atCoordinates x y) →
      ∃ v, e.atPoint (atCoordinates x y) = .ok v ∧ ¬(-zeroTolerance ≤ v ∧ v ≤ zeroTolerance) := by
  constructor
  · intro c p a hp hfin hrun
    rw [Program.outcome_compileDirect] at hrun
    exact e.exists_atPoint hp he hfin hrun
  · intro pools schedule s image column row X Y x y himage hempty hrect hx hy hfin
    have hkeeps := Program.keeps_othersZero (Program.compileDirect e) s.view
    -- An empty pixel is not incomplete, so it shows the interval of an evaluation.
    rcases shows_of_renderBy hkeeps himage hempty with hinc | ⟨c, a, c', hc, heval, hclass⟩
    · cases hinc
    · have ha := Program.onIntervals_of_evaluate hc hrect heval
      obtain ⟨v, hv, hav⟩ := e.exists_atPoint (atCoordinates_mem hx hy) he hfin ha
      refine ⟨v, hv, fun hzero ↦ ?_⟩
      obtain ⟨-, hclear⟩ := Pixel.classify_eq_empty_iff.mp hclass.symm
      exact hclear (.of_contains hav hzero.1 hzero.2)

/-- The right one of two pixels is outside the circle, in binary64 arithmetic. -/
theorem unitCircle_missed_nowhere :
    letI := Binary64.arithmetic Binary64.roundedPower
    (∃ v : Float, unitCircle.atPoint (atCoordinates (-0.5) 2) = .ok v ∧
        Interval.Contains ⟨0, 7⟩ v) ∧
      ∃ v : Float, unitCircle.atPoint (atCoordinates 3 3) = .ok v ∧
        ¬(-zeroTolerance ≤ v ∧ v ≤ zeroTolerance) := by
  let _ := Binary64.arithmetic Binary64.roundedPower
  have := Binary64.lawful Binary64.roundedPower
  have := Binary64.orderPreserving_roundedPower
  have hexp : (unitCircle : Expr Float).HasIntegralExponents :=
    unitCircle_hasIntegralExponents (by decide +kernel)
  refine ⟨(no_curve_point_missed unitCircle hexp).1
      (((Context.new 0).assign .x ⟨-1, 2⟩).assign .y ⟨1, 2⟩) _ ⟨0, 7⟩ ?_
      (by decide +kernel) (by decide +kernel),
    (no_curve_point_missed unitCircle hexp).2 .ample Crew.inTurn
      ⟨⟨.ofCorners .comparing ⟨0, 1⟩ ⟨4, 5⟩, ⟨2, 1⟩, .up⟩, .one⟩ ⟨2, 1, #[.curve, .empty], rfl⟩
      1 0 ⟨2, 4⟩ ⟨1, 5⟩ 3 3 (by decide +kernel) (by decide +kernel) (by decide +kernel)
      (by decide +kernel) (by decide +kernel) (by decide +kernel)⟩
  intro v
  rw [(Context.othersZero_new 0).lookup_assign_coordinates]
  exact atCoordinates_mem (by decide +kernel) (by decide +kernel) v

end Empty

end ImplicitPlot
