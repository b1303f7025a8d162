import ImplicitPlot.Plot.Crew
import ImplicitPlot.Plot.WorkerCount

/-!
# Rendering

A picture of a plottable thing over a region. There is none if the image has no pixels, if the
region is not finite, if there is no pool for the workers, or if a pixel could not be evaluated: the
first fault that was noted is reported instead. The pool is the platform's, so whether it can be
built is a parameter. A single worker needs none.
-/

namespace ImplicitPlot

/-- The reason why there is no pool of workers, in the words of the platform. -/
structure PoolError where
  message : String
deriving DecidableEq, Repr

/-- The platform's pools: there is one for a number of workers, or a reason why not. -/
structure PoolBuilder where
  build : Nat → Except PoolError Unit

/-- A platform that has a pool for any number of workers. -/
def PoolBuilder.ample : PoolBuilder := ⟨fun _ ↦ .ok ()⟩

/-- The reason why there is no picture. -/
inductive RenderError (α : Type)
  /-- The image has no pixels. -/
  | emptyImage (size : ImageSize)
  /-- A corner, or the width or height, of the region is not finite. -/
  | nonFiniteRegion
  /-- The rows cannot be divided in words. -/
  | tooManyRows
  /-- There is no pool for the workers. -/
  | noPool (reason : PoolError)
  /-- A pixel has no value. -/
  | faultAt (site : FaultSite α)
deriving DecidableEq, Repr

/-- What to draw on, and how many workers draw. -/
structure RenderSettings (α : Type) where
  view : View α
  workers : WorkerCount

variable {φ α κ : Type} [Plottable φ α κ] [Scalar α]

/-- What a crew has drawn once every worker is done. -/
def Canvas.outcome {α : Type} (c : Canvas α) : Except (RenderError α) Bitmap :=
  match c.firstFault with
  | some site => .error (.faultAt site)
  | none => .ok c.image

/-- The bands of a picture that can be drawn. -/
def RenderSettings.bands (s : RenderSettings α) : Except (RenderError α) (List Band) :=
  if s.view.size.IsEmpty then .error (.emptyImage s.view.size)
  else if ¬s.view.region.IsFinite then .error .nonFiniteRegion
  else
    match Band.list? s.view.size.rows s.workers.count with
    | none => .error .tooManyRows
    | some bands => .ok bands

/-- Gets a pool for the workers, if there are several. -/
def PoolBuilder.hire {α : Type} (pools : PoolBuilder) (workers : WorkerCount) :
    Except (RenderError α) Unit :=
  if workers = .one then .ok () else (pools.build workers.count).mapError .noPool

/-- The picture that a crew draws by a schedule, which may depend on the crew. -/
def renderBy (pools : PoolBuilder) (schedule : Crew α κ → List Nat) (f : φ)
    (s : RenderSettings α) : Except (RenderError α) Bitmap := do
  let bands ← s.bands
  pools.hire s.workers
  let crew : Crew α κ := .start f s.view.size bands
  (crew.run f s.view (schedule crew)).canvas.outcome

/-- The picture of a plottable thing. -/
def render (pools : PoolBuilder) (f : φ) (s : RenderSettings α) :
    Except (RenderError α) Bitmap :=
  renderBy pools Crew.inTurn f s

end ImplicitPlot
