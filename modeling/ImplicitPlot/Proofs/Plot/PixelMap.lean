import ImplicitPlot.Machine.Compile
import ImplicitPlot.Proofs.Machine.Bindings
import ImplicitPlot.Proofs.Plot.Turns
import ImplicitPlot.Proofs.Scalar.Exact

/-!
# A picture is a map of its pixels

The pixel in a column and row of a picture depends on that column and row only, however many workers
there are and whichever has a turn when. The workers keep a context from pixel to pixel, and share
the image and the place for the first fault; but an evaluation returns the same in all contexts that
a worker may have by then (`View.Decides`), and a pixel that has been drawn stays as it is
(`Crew.settled_run`).

For programs, the interval or fault of a pixel is that of a run in a new context, with the
coordinates bound to the rectangle of the pixel (`View.pixelValue`).
-/

namespace ImplicitPlot

variable {φ α κ : Type} [Plottable φ α κ] [Scalar α]

/-- In contexts with a property, which every evaluation keeps, the column and row of a pixel decide
its interval or fault. -/
structure View.Decides (v : View α) (f : φ) (Good : κ → Prop)
    (value : Nat → Nat → Except (Fault α) (Interval α)) : Prop extends v.Keeps f Good where
  value_eq_ok {column row : Nat} {c c' : κ} {a : Interval α} (hc : Good c)
    (he : v.evaluate f column row c = .ok a c') : value column row = .ok a
  value_eq_error {column row : Nat} {c c' : κ} {fault : Fault α} (hc : Good c)
    (he : v.evaluate f column row c = .error fault c') : value column row = .error fault

/-- The pixel at a place shows the interval that is decided for it. -/
def View.Settled (v : View α) (value : Nat → Nat → Except (Fault α) (Interval α))
    (image : Bitmap) (place : Nat) : Prop :=
  ∃ a, value (place % v.size.columns) (place / v.size.columns) = .ok a ∧
    image.pixels[place]? = some (.classify a)

/-- The image has the size of the view, and every pixel shows the interval decided for it: it is
incomplete if a bound is not a number, and otherwise it is on the curve if the interval touches
zero, and empty if not. -/
def View.IsPicture (v : View α) (value : Nat → Nat → Except (Fault α) (Interval α))
    (image : Bitmap) : Prop :=
  image.width = v.size.columns ∧ image.height = v.size.rows ∧
    ∀ column row, column < v.size.columns → row < v.size.rows →
      ∃ a, value column row = .ok a ∧
        (a.HasNaN → image.get? column row = some .incomplete) ∧
        (¬a.HasNaN → a.IsZero → image.get? column row = some .curve) ∧
        (¬a.HasNaN → ¬a.IsZero → image.get? column row = some .empty)

/-! ## Drawn pixels -/

namespace Crew

variable {f : φ} {v : View α} {Good : κ → Prop}
  {value : Nat → Nat → Except (Fault α) (Interval α)} {crew crew' : Crew α κ} {i place : Nat}

theorem Turned.image_size (h : Turned f v crew i crew') :
    crew'.canvas.image.width = crew.canvas.image.width ∧
      crew'.canvas.image.height = crew.canvas.image.height := by
  cases h with
  | idle | painted | faulted => exact ⟨rfl, rfl⟩

theorem image_size_run (schedule : List Nat) :
    (crew.run f v schedule).canvas.image.width = crew.canvas.image.width ∧
      (crew.run f v schedule).canvas.image.height = crew.canvas.image.height := by
  induction schedule generalizing crew with
  | nil => exact ⟨rfl, rfl⟩
  | cons i schedule ih =>
    obtain ⟨hwidth, hheight⟩ := (turned f v crew i).image_size
    obtain ⟨hwidth', hheight'⟩ := @ih (crew.turn f v i)
    exact ⟨hwidth'.trans hwidth, hheight'.trans hheight⟩

theorem Turned.settled (hdec : v.Decides f Good value) (hsound : crew.Sound f v Good)
    (h : Turned f v crew i crew') (hs : v.Settled value crew.canvas.image place) :
    v.Settled value crew'.canvas.image place := by
  cases h with
  | idle | faulted => exact hs
  | @painted w a c hw hlt he =>
    obtain ⟨b, hb, hpixel⟩ := hs
    refine ⟨b, hb, ?_⟩
    simp only [Canvas.paint, Bitmap.set]
    rw [Array.getElem?_setIfInBounds]
    split
    next heq =>
      subst heq
      have ha := hdec.value_eq_ok (hsound.contexts hw) he
      rw [if_pos (Array.getElem?_eq_some_iff.mp hpixel).1]
      cases ha.symm.trans hb
      rfl
    next => exact hpixel

theorem Turned.settled_place (hdec : v.Decides f Good value) (hsound : crew.Sound f v Good)
    (h : Turned f v crew i crew') (hplace : crew.place? i = some place)
    (hin : place < crew.canvas.image.pixels.size) (hnone : crew'.canvas.firstFault = none) :
    v.Settled value crew'.canvas.image place := by
  cases h with
  | idle hidle =>
    rw [hidle] at hplace
    cases hplace
  | @painted w a c hw hlt he =>
    rw [place?_eq hw hlt] at hplace
    cases hplace
    refine ⟨a, hdec.value_eq_ok (hsound.contexts hw) he, ?_⟩
    simp only [Canvas.paint, Bitmap.set]
    rw [Array.getElem?_setIfInBounds, if_pos rfl, if_pos hin]
  | faulted => exact absurd hnone (Canvas.firstFault_report_ne _ _)

/-- A fault that a turn notes is that of the place it draws. -/
theorem Turned.fault (hdec : v.Decides f Good value) (hsound : crew.Sound f v Good)
    (h : Turned f v crew i crew') {site : FaultSite α} (hnone : crew.canvas.firstFault = none)
    (hsite : crew'.canvas.firstFault = some site) :
    ∃ place, crew.place? i = some place ∧
      value (place % v.size.columns) (place / v.size.columns) = .error site.fault := by
  cases h with
  | idle | painted => cases hnone.symm.trans hsite
  | @faulted w fault c hw hlt he =>
    rw [Canvas.report, hnone] at hsite
    cases hsite
    exact ⟨w.next, place?_eq hw hlt, hdec.value_eq_error (hsound.contexts hw) he⟩

theorem settled_run (hdec : v.Decides f Good value) (hsound : crew.Sound f v Good)
    (hs : v.Settled value crew.canvas.image place) (schedule : List Nat) :
    v.Settled value (crew.run f v schedule).canvas.image place := by
  induction schedule generalizing crew with
  | nil => exact hs
  | cons i schedule ih =>
    exact ih (hsound.turn hdec.toKeeps i) ((turned f v crew i).settled hdec hsound hs)

/-- **Drawn pixels are settled** if there is no fault. By induction on the turns: the first one
settles its place, and later ones leave it alone. -/
theorem settled_of_mem_drawn (hdec : v.Decides f Good value) (hsound : crew.Sound f v Good)
    {schedule : List Nat} (hnone : (crew.run f v schedule).canvas.firstFault = none)
    (hplace : place ∈ crew.drawn f v schedule)
    (hin : place < crew.canvas.image.width * crew.canvas.image.height) :
    v.Settled value (crew.run f v schedule).canvas.image place := by
  induction schedule generalizing crew with
  | nil => cases hplace
  | cons i schedule ih =>
    have hturned := turned f v crew i
    have hsound' := hsound.turn hdec.toKeeps i
    rw [drawn, List.mem_append, Option.mem_toList] at hplace
    rcases hplace with hplace | hplace
    · rw [← crew.canvas.image.size_eq] at hin
      exact settled_run hdec hsound'
        (hturned.settled_place hdec hsound hplace hin (firstFault_eq_none hnone)) schedule
    · obtain ⟨hwidth, hheight⟩ := hturned.image_size
      rw [← hwidth, ← hheight] at hin
      exact ih hsound' hnone hplace hin

/-- **A fault that is noted is genuine**: it is the fault of a pixel that was drawn. -/
theorem exists_of_firstFault (hdec : v.Decides f Good value) (hsound : crew.Sound f v Good)
    {schedule : List Nat} {site : FaultSite α} (hnone : crew.canvas.firstFault = none)
    (hsite : (crew.run f v schedule).canvas.firstFault = some site) :
    ∃ place ∈ crew.drawn f v schedule,
      value (place % v.size.columns) (place / v.size.columns) = .error site.fault := by
  induction schedule generalizing crew with
  | nil =>
    rw [run, List.foldl_nil, hnone] at hsite
    cases hsite
  | cons i schedule ih =>
    cases hturn : (crew.turn f v i).canvas.firstFault with
    | none =>
      obtain ⟨place, hplace, hvalue⟩ := ih (hsound.turn hdec.toKeeps i) hturn hsite
      exact ⟨place, List.mem_append_right _ hplace, hvalue⟩
    | some site' =>
      cases hsite.symm.trans (firstFault_run hturn schedule)
      obtain ⟨place, hplace, hvalue⟩ := (turned f v crew i).fault hdec hsound hnone hturn
      exact ⟨place, List.mem_append_left _ (Option.mem_toList.mpr hplace), hvalue⟩

end Crew

/-! ## Places of an image -/

section Places

variable {v : View α} {value : Nat → Nat → Except (Fault α) (Interval α)} {image image' : Bitmap}

theorem ImageSize.lt_of_place_lt {size : ImageSize} {place : Nat}
    (h : place < size.rows * size.columns) :
    place % size.columns < size.columns ∧ place / size.columns < size.rows := by
  have hpos : 0 < size.columns := Nat.pos_of_lt_mul_left h
  exact ⟨Nat.mod_lt _ hpos, (Nat.div_lt_iff_lt_mul hpos).mpr h⟩

namespace View

private theorem isPicture_of_settled (hwidth : image.width = v.size.columns)
    (hheight : image.height = v.size.rows)
    (h : ∀ place < v.size.rows * v.size.columns, v.Settled value image place) :
    v.IsPicture value image := by
  refine ⟨hwidth, hheight, fun column row hcolumn hrow ↦ ?_⟩
  obtain ⟨a, ha, hpixel⟩ := h _ (place_lt_mul hcolumn hrow)
  rw [place_mod hcolumn, place_div hcolumn] at ha
  rw [Bitmap.get?, hwidth, hheight, if_pos ⟨hcolumn, hrow⟩, hpixel]
  refine ⟨a, ha, fun hnan ↦ ?_, fun hnan hzero ↦ ?_, fun hnan hzero ↦ ?_⟩
  · rw [Pixel.classify_eq_incomplete_iff.mpr hnan]
  · rw [Pixel.classify_eq_curve_iff.mpr ⟨hnan, hzero⟩]
  · rw [Pixel.classify_eq_empty_iff.mpr ⟨hnan, hzero⟩]

namespace IsPicture

theorem settled (h : v.IsPicture value image) {place : Nat}
    (hin : place < v.size.rows * v.size.columns) : v.Settled value image place := by
  obtain ⟨hwidth, hheight, hpixels⟩ := h
  obtain ⟨hcolumn, hrow⟩ := ImageSize.lt_of_place_lt hin
  obtain ⟨a, ha, hincomplete, hcurve, hempty⟩ := hpixels _ _ hcolumn hrow
  have hget : image.get? (place % v.size.columns) (place / v.size.columns)
      = some (.classify a) := by
    by_cases hnan : a.HasNaN
    · rw [hincomplete hnan, Pixel.classify_eq_incomplete_iff.mpr hnan]
    by_cases hzero : a.IsZero
    · rw [hcurve hnan hzero, Pixel.classify_eq_curve_iff.mpr ⟨hnan, hzero⟩]
    · rw [hempty hnan hzero, Pixel.classify_eq_empty_iff.mpr ⟨hnan, hzero⟩]
  rw [Bitmap.get?, hwidth, hheight, if_pos ⟨hcolumn, hrow⟩, Nat.div_add_mod'] at hget
  exact ⟨a, ha, hget⟩

theorem size_eq (h : v.IsPicture value image) :
    image.pixels.size = v.size.rows * v.size.columns := by
  rw [image.size_eq, h.1, h.2.1, Nat.mul_comm]

theorem unique (h : v.IsPicture value image) (h' : v.IsPicture value image') : image = image' := by
  have hpixels : image.pixels = image'.pixels := by
    refine Array.ext_getElem? fun place ↦ ?_
    by_cases hin : place < v.size.rows * v.size.columns
    · obtain ⟨a, ha, hpixel⟩ := h.settled hin
      obtain ⟨b, hb, hpixel'⟩ := h'.settled hin
      cases ha.symm.trans hb
      exact hpixel.trans hpixel'.symm
    · rw [Array.getElem?_eq_none (by rw [h.size_eq]; exact Nat.le_of_not_lt hin),
        Array.getElem?_eq_none (by rw [h'.size_eq]; exact Nat.le_of_not_lt hin)]
  have hwidth := h.1.trans h'.1.symm
  have hheight := h.2.1.trans h'.2.1.symm
  cases image
  cases image'
  cases hpixels
  cases hwidth
  cases hheight
  rfl

end IsPicture

end View

end Places

/-! ## Pictures by any schedule -/

section Pictures

variable {f : φ} {s : RenderSettings α} {Good : κ → Prop} {bands : List Band}
  {value : Nat → Nat → Except (Fault α) (Interval α)}

theorem RenderSettings.exists_bands (hsize : ¬s.view.size.IsEmpty)
    (hregion : s.view.region.IsFinite) :
    ∃ bands, s.bands = .ok bands ∧ Band.Tile 0 bands s.view.size.rows := by
  obtain ⟨bands, hbands, htile⟩ :=
    Band.exists_list? (Band.clampCount_mul_lt s.view.size.height.toNat_lt_size s.workers.count)
  refine ⟨bands, ?_, htile⟩
  rw [RenderSettings.bands, if_neg hsize, if_neg (not_not_intro hregion), ImageSize.rows, hbands]

namespace Crew

variable {v : View α} {schedule : List Nat}

omit [Scalar α] in
theorem left_start (htile : Band.Tile 0 bands v.size.rows) :
    (start f v.size bands : Crew α κ).left = List.range (v.size.rows * v.size.columns) := by
  rw [left, start, List.flatMap_map]
  refine htile.flatMap_places.trans ?_
  rw [Nat.zero_mul, List.Ico.zero_bot]

theorem drawn_start_subperm (htile : Band.Tile 0 bands v.size.rows) (schedule : List Nat) :
    (drawn f v (start f v.size bands) schedule).Subperm
      (List.range (v.size.rows * v.size.columns)) := by
  rw [← left_start (f := f) htile]
  exact (List.sublist_append_left _ _).subperm.trans (drawn_subperm schedule)

private theorem nodup_drawn_start (htile : Band.Tile 0 bands v.size.rows) (schedule : List Nat) :
    (drawn f v (start f v.size bands) schedule).Nodup := by
  obtain ⟨places, hperm, hsub⟩ := drawn_start_subperm (f := f) htile schedule
  exact hperm.nodup_iff.mp (hsub.nodup List.nodup_range)

theorem drawn_start_perm (htile : Band.Tile 0 bands v.size.rows)
    (hdone : ((start f v.size bands).run f v schedule).Done)
    (hnone : ((start f v.size bands).run f v schedule).canvas.firstFault = none) :
    (drawn f v (start f v.size bands) schedule).Perm
      (List.range (v.size.rows * v.size.columns)) := by
  have hperm := drawn_perm hnone
  rwa [hdone.left_eq_nil, List.append_nil, left_start htile] at hperm

theorem isPicture_run (hdec : v.Decides f Good value) (htile : Band.Tile 0 bands v.size.rows)
    (hdone : ((start f v.size bands).run f v schedule).Done)
    (hnone : ((start f v.size bands).run f v schedule).canvas.firstFault = none) :
    v.IsPicture value ((start f v.size bands).run f v schedule).canvas.image := by
  have hsound : Sound f v Good (start f v.size bands) := sound_start hdec.toKeeps bands
  obtain ⟨hwidth, hheight⟩ :
      ((start f v.size bands).run f v schedule).canvas.image.width = v.size.columns ∧
        ((start f v.size bands).run f v schedule).canvas.image.height = v.size.rows :=
    image_size_run schedule
  refine View.isPicture_of_settled hwidth hheight fun place hplace ↦ ?_
  have hmem := (drawn_start_perm htile hdone hnone).mem_iff.mpr (List.mem_range.mpr hplace)
  refine settled_of_mem_drawn hdec hsound hnone hmem ?_
  exact Nat.mul_comm v.size.columns v.size.rows ▸ hplace

theorem firstFault_run_eq_none (hdec : v.Decides f Good value)
    (htile : Band.Tile 0 bands v.size.rows)
    (hvalue : ∀ column row, column < v.size.columns → row < v.size.rows →
      ∃ a, value column row = .ok a) :
    ((start f v.size bands).run f v schedule).canvas.firstFault = none := by
  rw [Option.eq_none_iff_forall_ne_some]
  intro site hsite
  obtain ⟨place, hplace, hfault⟩ :=
    exists_of_firstFault hdec (sound_start hdec.toKeeps bands) rfl hsite
  have hin := (drawn_start_subperm htile schedule).subset hplace
  obtain ⟨hcolumn, hrow⟩ := ImageSize.lt_of_place_lt (List.mem_range.mp hin)
  obtain ⟨a, ha⟩ := hvalue _ _ hcolumn hrow
  cases hfault.symm.trans ha

end Crew

/-- The schedule goes on until all workers are done. -/
def RenderSettings.Finishes (s : RenderSettings α) (f : φ) (schedule : Crew α κ → List Nat) :
    Prop :=
  ∀ bands, s.bands = .ok bands →
    (Crew.run f s.view (.start f s.view.size bands) (schedule (.start f s.view.size bands))).Done

variable {pools : PoolBuilder} {schedule : Crew α κ → List Nat}

theorem RenderSettings.finishes_inTurn (s : RenderSettings α) (f : φ) :
    s.Finishes f (Crew.inTurn : Crew α κ → List Nat) :=
  fun _ _ ↦ Crew.done_run_inTurn

/-- **There is a picture unless a pixel has a fault.** -/
theorem exists_renderBy_iff (hdec : s.view.Decides f Good value) (hbands : s.bands = .ok bands)
    (htile : Band.Tile 0 bands s.view.size.rows) (hpools : pools.Serves s.workers)
    (hfinish : s.Finishes f schedule) :
    (∃ image, renderBy pools schedule f s = .ok image) ↔
      ∀ column row, column < s.view.size.columns → row < s.view.size.rows →
        ∃ a, value column row = .ok a := by
  rw [renderBy_of_bands hbands hpools]
  constructor
  · rintro ⟨image, himage⟩ column row hcolumn hrow
    have hnone := (Canvas.outcome_eq_ok_iff.mp himage).1
    obtain ⟨a, ha, -⟩ :=
      (Crew.isPicture_run hdec htile (hfinish bands hbands) hnone).2.2 column row hcolumn hrow
    exact ⟨a, ha⟩
  · intro hvalue
    exact ⟨_, Canvas.outcome_eq_ok_iff.mpr ⟨Crew.firstFault_run_eq_none hdec htile hvalue, rfl⟩⟩

/-- **The picture is the map of its pixels.** -/
theorem renderBy_eq_ok_iff (hdec : s.view.Decides f Good value) (hbands : s.bands = .ok bands)
    (htile : Band.Tile 0 bands s.view.size.rows) (hpools : pools.Serves s.workers)
    (hfinish : s.Finishes f schedule) {image : Bitmap} :
    renderBy pools schedule f s = .ok image ↔ s.view.IsPicture value image := by
  have hpicture : ∀ {image}, renderBy pools schedule f s = .ok image →
      s.view.IsPicture value image := by
    intro image himage
    rw [renderBy_of_bands hbands hpools, Canvas.outcome_eq_ok_iff] at himage
    obtain ⟨hnone, rfl⟩ := himage
    exact Crew.isPicture_run hdec htile (hfinish bands hbands) hnone
  refine ⟨hpicture, fun h ↦ ?_⟩
  obtain ⟨image', himage'⟩ := (exists_renderBy_iff hdec hbands htile hpools hfinish).mpr
    fun column row hcolumn hrow ↦ (h.2.2 column row hcolumn hrow).imp fun _ ↦ And.left
  rw [h.unique (hpicture himage')]
  exact himage'

end Pictures

/-! ## Pictures of programs -/

variable {p : Program α} {v : View α}

/-- The interval or fault of a pixel: that of a run in a new context, with the coordinates bound to
the rectangle of the pixel. -/
def View.pixelValue (v : View α) (p : Program α) (column row : Nat) :
    Except (Fault α) (Interval α) := do
  let (x, y) ← v.pixelRect column row
  p.execute.outcome ((p.newContext.assign .x x).assign .y y)

namespace Program

/-- As in a new context for the program, the variables other than the coordinates are zero, and the
stack has the slots that the program asks for. -/
def IsReady (p : Program α) (c : Context α) : Prop := c.OthersZero ∧ c.capacity = p.stackSize

theorem isReady_newContext (p : Program α) : p.IsReady p.newContext :=
  ⟨Context.othersZero_new _, Array.size_replicate⟩

/-- A context that is ready is as good as a new one. -/
theorem IsReady.outcome_executeOver {c : Context α} (h : p.IsReady c) (x y : Interval α) :
    (p.executeOver x y).outcome c
      = p.execute.outcome ((p.newContext.assign .x x).assign .y y) := by
  have hnew := p.isReady_newContext
  rw [Program.outcome_executeOver]
  refine outcome_execute_congr p ?_ (h.2.trans hnew.2.symm)
  rw [h.1.lookup_assign_coordinates, hnew.1.lookup_assign_coordinates]

theorem IsReady.after_executeOver {c : Context α} (h : p.IsReady c) (x y : Interval α) :
    p.IsReady ((p.executeOver x y).after c) := by
  refine ⟨othersZero_after_executeOver p x y h.1, ?_⟩
  rw [capacity_after_executeOver, h.2, Nat.max_self]

theorem contextAfter_eq (p : Program α) (v : View α) (column row : Nat) (c : Context α) :
    v.contextAfter p column row c = match v.pixelRect column row with
      | .ok (x, y) => (p.executeOver x y).after c
      | .error _ => c := by
  rw [View.contextAfter, View.evaluate]
  cases v.pixelRect column row with
  | error fault => rfl
  | ok rect =>
    simp only [Plottable.onRectangle, Evaluation.after]
    cases p.executeOver rect.1 rect.2 c <;> rfl

theorem IsReady.outcome_evaluate {c : Context α} (h : p.IsReady c) (v : View α)
    (column row : Nat) :
    Evaluation.outcome (v.evaluate p column row) c = v.pixelValue p column row := by
  rw [Evaluation.outcome, View.evaluate, View.pixelValue]
  cases v.pixelRect column row with
  | error fault => rfl
  | ok rect => exact h.outcome_executeOver rect.1 rect.2

/-- The column and row of a pixel decide its interval or fault in all contexts that a worker may
have. -/
theorem decides (p : Program α) (v : View α) : v.Decides p p.IsReady (v.pixelValue p) where
  newContext := p.isReady_newContext
  contextAfter column row c h := by
    rw [contextAfter_eq]
    split
    · exact h.after_executeOver _ _
    · exact h
  value_eq_ok hc he := by rw [← hc.outcome_evaluate, Evaluation.outcome, he]
  value_eq_error hc he := by rw [← hc.outcome_evaluate, Evaluation.outcome, he]

end Program

/-- A line through the region of four pixels. -/
def diagonal : Program ℚ := .compile (.binary .sub (.var .x) (.var .y))

/-- Four pixels, two of which are on the diagonal. -/
def diagonalView : View ℚ := ⟨.ofCorners .comparing ⟨0, 0⟩ ⟨4, 2⟩, ⟨2, 2⟩, .down⟩

end ImplicitPlot
