import ImplicitPlot.Plot.Render
import ImplicitPlot.Proofs.Sequence

/-!
# What a crew has drawn

A pixel of an image that is not left as it was at the start comes from an evaluation over the
rectangle of that pixel. This is an invariant of the crew, `Crew.Sound`: one turn keeps it, so every
schedule does, whichever worker has a turn when. The evaluations take place in the contexts of the
workers, and a property that every evaluation keeps holds of all these contexts.
-/

namespace ImplicitPlot

variable {φ α κ : Type} [Plottable φ α κ] [Scalar α]

/-- The context after the evaluation of a pixel, whether it succeeds or not. -/
def View.contextAfter (v : View α) (f : φ) (column row : Nat) (c : κ) : κ :=
  match v.evaluate f column row c with
  | .ok _ c' | .error _ c' => c'

/-- Every evaluation of a pixel keeps a property of the contexts, which a new context has. -/
structure View.Keeps (v : View α) (f : φ) (Good : κ → Prop) : Prop where
  newContext : Good (Plottable.newContext f)
  contextAfter (column row : Nat) {c : κ} : Good c → Good (v.contextAfter f column row c)

namespace Pixel

variable {a : Interval α}

@[simp] theorem classify_eq_incomplete_iff : classify a = .incomplete ↔ a.HasNaN := by
  rw [classify]
  split
  next h => exact iff_of_true rfl h
  next h => split <;> exact iff_of_false (by decide) h

@[simp] theorem classify_eq_curve_iff : classify a = .curve ↔ ¬a.HasNaN ∧ a.IsZero := by
  rw [classify]
  split
  next h => exact iff_of_false (by decide) fun hcurve ↦ hcurve.1 h
  next h =>
    split
    next hzero => exact iff_of_true rfl ⟨h, hzero⟩
    next hzero => exact iff_of_false (by decide) fun hcurve ↦ hzero hcurve.2

@[simp] theorem classify_eq_empty_iff : classify a = .empty ↔ ¬a.HasNaN ∧ ¬a.IsZero := by
  rw [classify]
  split
  next h => exact iff_of_false (by decide) fun hempty ↦ hempty.1 h
  next h =>
    split
    next hzero => exact iff_of_false (by decide) fun hempty ↦ hempty.2 hzero
    next hzero => exact iff_of_true rfl ⟨h, hzero⟩

end Pixel

/-- The pixel at a place shows the interval of an evaluation in a context with the property. -/
def View.Shows (v : View α) (f : φ) (Good : κ → Prop) (place : Nat) (p : Pixel) : Prop :=
  ∃ c a c', Good c ∧
    v.evaluate f (place % v.size.columns) (place / v.size.columns) c = .ok a c' ∧ p = .classify a

/-! ## One turn -/

namespace Worker

/-- All that a worker may do in a turn: nothing when it is done, or else the next pixel, which is
painted, or left with a fault. -/
theorem turn_cases (f : φ) (v : View α) (w : Worker κ) (canvas : Canvas α) :
    w.stop ≤ w.next ∧ w.turn f v canvas = (w, canvas) ∨
    (∃ a c', w.next < w.stop ∧
      v.evaluate f (w.next % v.size.columns) (w.next / v.size.columns) w.context = .ok a c' ∧
      w.turn f v canvas = (⟨c', w.next + 1, w.stop⟩, canvas.paint w.next (.classify a))) ∨
    ∃ fault c', w.next < w.stop ∧
      v.evaluate f (w.next % v.size.columns) (w.next / v.size.columns) w.context
        = .error fault c' ∧
      w.turn f v canvas
        = (⟨c', if fault.isArithmetic then w.next + 1 else w.stop, w.stop⟩,
          canvas.report
            ⟨fault, v.pixelCorner (w.next % v.size.columns) (w.next / v.size.columns)⟩) := by
  rw [turn]
  by_cases h : w.next < w.stop
  · rw [if_pos h]
    cases he : v.evaluate f (w.next % v.size.columns) (w.next / v.size.columns) w.context with
    | ok a c' =>
      refine .inr (.inl ⟨a, c', h, rfl, ?_⟩)
      simp only [he]
    | error fault c' =>
      refine .inr (.inr ⟨fault, c', h, rfl, ?_⟩)
      simp only [he]
  · exact .inl ⟨Nat.le_of_not_lt h, if_neg h⟩

end Worker

/-! ## The invariant -/

namespace Crew

/-- The image has the columns of the view, the workers have contexts with a property, and every
pixel is incomplete or shows an interval. -/
structure Sound (f : φ) (v : View α) (Good : κ → Prop) (crew : Crew α κ) : Prop where
  width : crew.canvas.image.width = v.size.columns
  contexts {i : Nat} {w : Worker κ} : crew.workers[i]? = some w → Good w.context
  pixels {place : Nat} {p : Pixel} : crew.canvas.image.pixels[place]? = some p →
    p = .incomplete ∨ v.Shows f Good place p

variable {f : φ} {v : View α} {Good : κ → Prop} {crew : Crew α κ}

theorem sound_start (hkeeps : v.Keeps f Good) (bands : List Band) :
    Sound f v Good (.start f v.size bands) where
  width := rfl
  contexts {i w} h := by
    rw [start, List.getElem?_toArray, List.getElem?_map, Option.map_eq_some_iff] at h
    obtain ⟨band, -, rfl⟩ := h
    exact hkeeps.newContext
  pixels {place p} h := by
    rw [start, Canvas.blank, Bitmap.blank] at h
    simp only [Array.getElem?_replicate] at h
    split at h
    · cases h
      exact .inl rfl
    · cases h

theorem Sound.contexts_set (h : Sound f v Good crew) (i : Nat) {w : Worker κ}
    (hw : Good w.context) {j : Nat} {u : Worker κ}
    (hu : (crew.workers.setIfInBounds i w)[j]? = some u) : Good u.context := by
  rw [Array.getElem?_setIfInBounds] at hu
  split at hu
  · split at hu
    · cases hu
      exact hw
    · cases hu
  · exact h.contexts hu

/-- A turn of any worker keeps the invariant. -/
theorem Sound.turn (hkeeps : v.Keeps f Good) (h : Sound f v Good crew) (i : Nat) :
    Sound f v Good (crew.turn f v i) := by
  obtain ⟨workers, canvas⟩ := crew
  rw [Crew.turn]
  cases hw : workers[i]? with
  | none => exact h
  | some w =>
    have hgood : Good w.context := h.contexts hw
    have hafter := hkeeps.contextAfter (w.next % v.size.columns) (w.next / v.size.columns) hgood
    obtain ⟨-, ht⟩ | ⟨a, c', -, he, ht⟩ | ⟨fault, c', -, he, ht⟩ := w.turn_cases f v canvas
    · simp only [ht]
      exact ⟨h.width, h.contexts_set i hgood, h.pixels⟩
    · simp only [View.contextAfter, he] at hafter
      simp only [ht]
      refine ⟨h.width, h.contexts_set i hafter, fun {place p} hp ↦ ?_⟩
      simp only [Canvas.paint, Bitmap.set] at hp
      rw [Array.getElem?_setIfInBounds] at hp
      -- The place that has been painted shows its interval; the other places are as they were.
      split at hp
      next heq =>
        split at hp
        · cases hp
          subst heq
          exact .inr ⟨w.context, a, c', hgood, he, rfl⟩
        · cases hp
      next => exact h.pixels hp
    · simp only [View.contextAfter, he] at hafter
      simp only [ht]
      exact ⟨h.width, h.contexts_set i hafter, h.pixels⟩

/-- **Every schedule keeps the invariant.** By induction on the turns. -/
theorem Sound.run (hkeeps : v.Keeps f Good) (h : Sound f v Good crew) (schedule : List Nat) :
    Sound f v Good (crew.run f v schedule) := by
  induction schedule generalizing crew with
  | nil => exact h
  | cons i schedule ih => exact ih (h.turn hkeeps i)

end Crew

/-! ## Pictures -/

/-- The place of a pixel tells its column again. -/
theorem place_mod {columns column : Nat} (h : column < columns) (row : Nat) :
    (row * columns + column) % columns = column := by
  rw [Nat.mul_comm, Nat.mul_add_mod, Nat.mod_eq_of_lt h]

theorem place_div {columns column : Nat} (h : column < columns) (row : Nat) :
    (row * columns + column) / columns = row := by
  rw [Nat.mul_comm, Nat.mul_add_div (Nat.zero_lt_of_lt h), Nat.div_eq_of_lt h, Nat.add_zero]

theorem place_lt_mul {columns column row row' : Nat} (hcolumn : column < columns)
    (hrow : row < row') : row * columns + column < row' * columns :=
  calc row * columns + column
      < row * columns + columns := Nat.add_lt_add_left hcolumn _
    _ = (row + 1) * columns := (Nat.succ_mul _ _).symm
    _ ≤ row' * columns := Nat.mul_le_mul_right _ hrow

omit [Scalar α] in
@[simp] theorem Canvas.outcome_eq_ok_iff {canvas : Canvas α} {image : Bitmap} :
    canvas.outcome = .ok image ↔ canvas.firstFault = none ∧ canvas.image = image := by
  rw [outcome]
  cases canvas.firstFault with
  | none => simp
  | some site => simp

/-! ## Pools -/

namespace PoolBuilder

variable {pools : PoolBuilder} {workers : WorkerCount}

/-- There is a pool for the workers, or none is needed for a single one. -/
def Serves (pools : PoolBuilder) (workers : WorkerCount) : Prop :=
  workers = .one ∨ pools.build workers.count = .ok ()

omit [Scalar α] in
@[simp] theorem hire_eq_ok_iff :
    (pools.hire workers : Except (RenderError α) Unit) = .ok () ↔ pools.Serves workers := by
  rw [hire, Serves]
  split
  next hone => exact iff_of_true rfl (.inl hone)
  next hone =>
    rw [or_iff_right hone]
    cases pools.build workers.count with
    | ok => exact iff_of_true rfl rfl
    | error => exact iff_of_false nofun nofun

theorem ample_serves (workers : WorkerCount) : ample.Serves workers := .inr rfl

end PoolBuilder

section Pictures

variable {pools : PoolBuilder} {schedule : Crew α κ → List Nat} {f : φ} {s : RenderSettings α}
  {bands : List Band} {image : Bitmap}

theorem renderBy_of_bands (hbands : s.bands = .ok bands) (hpools : pools.Serves s.workers) :
    renderBy pools schedule f s = (Crew.run f s.view (.start f s.view.size bands)
      (schedule (.start f s.view.size bands))).canvas.outcome := by
  rw [renderBy, hbands]
  change (pools.hire s.workers >>= _) = _
  rw [PoolBuilder.hire_eq_ok_iff.mpr hpools]
  rfl

theorem exists_bands_of_renderBy (h : renderBy pools schedule f s = .ok image) :
    ∃ bands, s.bands = .ok bands ∧ pools.Serves s.workers ∧
      (Crew.run f s.view (.start f s.view.size bands)
        (schedule (.start f s.view.size bands))).canvas.outcome = .ok image := by
  obtain ⟨bands, hbands, hrest⟩ := exists_of_bind_eq_ok h
  obtain ⟨_, hpools, himage⟩ := exists_of_bind_eq_ok hrest
  exact ⟨bands, hbands, PoolBuilder.hire_eq_ok_iff.mp hpools, himage⟩

/-- Without a pool there is no picture, and the reason is reported. -/
theorem renderBy_of_not_serves (hbands : s.bands = .ok bands) (hpools : ¬pools.Serves s.workers) :
    ∃ reason, pools.build s.workers.count = .error reason ∧
      renderBy pools schedule f s = .error (.noPool reason) := by
  obtain ⟨hone, hbuild⟩ := not_or.mp hpools
  cases hreason : pools.build s.workers.count with
  | ok => exact absurd hreason hbuild
  | error reason =>
    refine ⟨reason, rfl, ?_⟩
    rw [renderBy, hbands]
    change (pools.hire s.workers >>= _) = _
    rw [PoolBuilder.hire, if_neg hone, hreason]
    rfl

/-- A pixel of a picture, drawn by any schedule, is incomplete or shows the interval of an
evaluation for its column and row. -/
theorem shows_of_renderBy {Good : κ → Prop} (hkeeps : s.view.Keeps f Good)
    (h : renderBy pools schedule f s = .ok image) {column row : Nat} {p : Pixel}
    (hp : image.get? column row = some p) :
    p = .incomplete ∨ ∃ c a c', Good c ∧ s.view.evaluate f column row c = .ok a c' ∧
      p = .classify a := by
  obtain ⟨bands, -, -, hcrew⟩ := exists_bands_of_renderBy h
  have hsound := (Crew.sound_start hkeeps bands).run hkeeps
    (schedule (.start f s.view.size bands))
  have himage := (Canvas.outcome_eq_ok_iff.mp hcrew).2
  have hwidth : image.width = s.view.size.columns := himage ▸ hsound.width
  rw [Bitmap.get?, hwidth] at hp
  split at hp
  next hin =>
    rcases hsound.pixels (himage ▸ hp) with hinc | hshows
    · exact .inl hinc
    · rw [View.Shows, place_mod hin.1, place_div hin.1] at hshows
      exact .inr hshows
  next => cases hp

end Pictures

end ImplicitPlot
