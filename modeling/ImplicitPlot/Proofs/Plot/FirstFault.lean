import ImplicitPlot.Proofs.Interval.Enclosure
import ImplicitPlot.Proofs.Plot.PixelMap
import ImplicitPlot.Proofs.Sequence

/-!
# The fault that is reported

A picture that has a pixel with a fault is not drawn, and the fault that was noted first is reported
instead. Which one that is depends on the schedule, but it is the first one of a band, in the
row-by-row order of the image: the worker of that band has gone through all earlier pixels of the
band, and would have noted their faults. The invariant speaks of what is left for each worker: the
first fault among the places that are left is the first one among those that were left before the
turn, unless the turn itself notes a fault (`Crew.Turned.firstFrom`).

The schedule does not decide which pixels are evaluated, either (`Crew.drawnBy_eq`). Each worker
goes through its band up to the first fault that is not arithmetic, whatever the other workers meet.
-/

namespace ImplicitPlot

variable {φ α κ : Type} [Plottable φ α κ] [Scalar α]

/-- The bounds that are reported with a fault are the lower ones of the pixel's rectangle. -/
theorem View.pixelCorner_eq {v : View α} {column row : Nat} {x y : Interval α}
    (h : v.pixelRect column row = .ok (x, y)) : v.pixelCorner column row = ⟨x.lower, y.lower⟩ := by
  obtain ⟨x', hx, h⟩ := exists_of_bind_eq_ok h
  obtain ⟨y', hy, h⟩ := exists_of_bind_eq_ok h
  cases h
  rw [Interval.eq_of_checked hx, Interval.eq_of_checked hy]
  rfl

namespace View

/-- What is decided for the pixel at a place of the row-by-row order. -/
def atPlace {β : Type} (v : View α) (value : Nat → Nat → β) (place : Nat) : β :=
  value (place % v.size.columns) (place / v.size.columns)

/-- The site is that of the first fault from a place on, up to but without another one. -/
def FirstFrom (v : View α) (value : Nat → Nat → Except (Fault α) (Interval α)) (start stop : Nat)
    (site : FaultSite α) : Prop :=
  ∃ place, start ≤ place ∧ place < stop ∧
    (∀ earlier, start ≤ earlier → earlier < place → ∃ a, v.atPlace value earlier = .ok a) ∧
    v.atPlace value place = .error site.fault ∧ site.corner = v.atPlace v.pixelCorner place

/-- The pixel has a fault, and every earlier pixel of the band has an interval: those of the rows
above it, and those to its left. -/
structure IsFirstFault (v : View α) (value : Nat → Nat → Except (Fault α) (Interval α))
    (band : Band) (column row : Nat) (fault : Fault α) : Prop where
  row_mem : band.start ≤ row ∧ row < band.stop
  column_lt : column < v.size.columns
  value_eq : value column row = .error fault
  earlier {column' row' : Nat} (hcolumn : column' < v.size.columns) (hrow : band.start ≤ row')
    (h : row' < row ∨ row' = row ∧ column' < column) : ∃ a, value column' row' = .ok a

/-- What is decided for a pixel ends the work on its band: a fault that is not arithmetic. -/
def endsBand {β : Type} : Except (Fault α) β → Bool
  | .ok _ => false
  | .error fault => !fault.isArithmetic

/-- The places that are evaluated, of those that are left for a worker: all of them, or those up to
the first one that ends the work. -/
def course (v : View α) (value : Nat → Nat → Except (Fault α) (Interval α)) :
    List Nat → List Nat
  | [] => []
  | place :: places =>
    place :: if endsBand (v.atPlace value place) then [] else course v value places

variable {v : View α} {value : Nat → Nat → Except (Fault α) (Interval α)}

theorem FirstFrom.of_succ {start stop : Nat} {site : FaultSite α} {a : Interval α}
    (h : v.FirstFrom value (start + 1) stop site) (ha : v.atPlace value start = .ok a) :
    v.FirstFrom value start stop site := by
  obtain ⟨place, hle, hlt, hearlier, hrest⟩ := h
  refine ⟨place, by omega, hlt, fun earlier hstart hearly ↦ ?_, hrest⟩
  rcases Nat.eq_or_lt_of_le hstart with rfl | hstart
  · exact ⟨a, ha⟩
  · exact hearlier earlier hstart hearly

theorem FirstFrom.exists_isFirstFault {band : Band} {site : FaultSite α}
    (h : v.FirstFrom value (band.start * v.size.columns) (band.stop * v.size.columns) site) :
    ∃ column row, v.IsFirstFault value band column row site.fault ∧
      site.corner = v.pixelCorner column row := by
  obtain ⟨place, hstart, hstop, hearlier, hfault, hcorner⟩ := h
  have hpos : 0 < v.size.columns := Nat.pos_of_lt_mul_left hstop
  refine ⟨_, _, ⟨⟨?_, ?_⟩, Nat.mod_lt place hpos, hfault, fun {column' row'} hcolumn hrow h ↦ ?_⟩,
    hcorner⟩
  · exact (Nat.le_div_iff_mul_le hpos).mpr hstart
  · exact (Nat.div_lt_iff_lt_mul hpos).mpr hstop
  · have hplace : row' * v.size.columns + column' < place := by
      rw [← Nat.div_add_mod' place v.size.columns]
      rcases h with hlt | ⟨rfl, hlt⟩
      · exact Nat.lt_of_lt_of_le (place_lt_mul hcolumn hlt) (Nat.le_add_right _ _)
      · exact Nat.add_lt_add_left hlt _
    have hle : band.start * v.size.columns ≤ row' * v.size.columns + column' :=
      Nat.le_trans (Nat.mul_le_mul_right _ hrow) (Nat.le_add_right _ _)
    have hvalue := hearlier _ hle hplace
    rwa [atPlace, place_mod hcolumn, place_div hcolumn] at hvalue

omit [Scalar α] in
/-- The first of the places that are left is evaluated in any case. -/
theorem course_ico {start stop : Nat} (h : start < stop) :
    v.course value (List.Ico start stop)
      = start :: if endsBand (v.atPlace value start) then []
          else v.course value (List.Ico (start + 1) stop) := by
  rw [List.Ico.eq_cons h]
  rfl

end View

/-! ## One turn -/

namespace Crew

variable {f : φ} {v : View α} {Good : κ → Prop}
  {value : Nat → Nat → Except (Fault α) (Interval α)} {crew crew' : Crew α κ} {i j : Nat}

omit [Scalar α] in
/-- The worker that had the turn has been replaced. -/
theorem getElem?_set_self {w : Worker κ} (hw : crew.workers[i]? = some w) (w' : Worker κ) :
    (crew.workers.setIfInBounds i w')[i]? = some w' := by
  rw [Array.getElem?_setIfInBounds, if_pos rfl, if_pos (Array.getElem?_eq_some_iff.mp hw).1]

omit [Scalar α] in
/-- The other workers are as they were. -/
theorem getElem?_set_ne (hij : i ≠ j) (w' : Worker κ) :
    (crew.workers.setIfInBounds i w')[j]? = crew.workers[j]? := by
  rw [Array.getElem?_setIfInBounds, if_neg hij]

/-- A fault that a turn notes is the first one among the places that were left for the worker. -/
theorem Turned.firstFrom_of_noted (hdec : v.Decides f Good value) (hsound : crew.Sound f v Good)
    (h : Turned f v crew i crew') {site : FaultSite α} (hnone : crew.canvas.firstFault = none)
    (hsite : crew'.canvas.firstFault = some site) :
    ∃ w, crew.workers[i]? = some w ∧ v.FirstFrom value w.next w.stop site := by
  cases h with
  | idle | painted => cases hnone.symm.trans hsite
  | @faulted w fault c hw hlt he =>
    rw [Canvas.report, hnone] at hsite
    cases hsite
    refine ⟨w, hw, w.next, Nat.le_refl _, hlt, fun earlier hle hearly ↦ ?_,
      hdec.value_eq_error (hsound.contexts hw) he, rfl⟩
    exact absurd hearly (Nat.not_lt.mpr hle)

/-- A turn that notes no fault leaves the first fault of each worker where it was. -/
theorem Turned.firstFrom (hdec : v.Decides f Good value) (hsound : crew.Sound f v Good)
    (h : Turned f v crew i crew') (hnone : crew'.canvas.firstFault = none) {w' : Worker κ}
    (hw' : crew'.workers[j]? = some w') {site : FaultSite α}
    (hsite : v.FirstFrom value w'.next w'.stop site) :
    ∃ w, crew.workers[j]? = some w ∧ v.FirstFrom value w.next w.stop site := by
  cases h with
  | idle => exact ⟨w', hw', hsite⟩
  | @painted w a c hw hlt he =>
    by_cases hij : i = j
    · subst hij
      rw [getElem?_set_self hw] at hw'
      cases hw'
      exact ⟨w, hw, hsite.of_succ (hdec.value_eq_ok (hsound.contexts hw) he)⟩
    · rw [getElem?_set_ne hij] at hw'
      exact ⟨w', hw', hsite⟩
  | faulted => exact absurd hnone (Canvas.firstFault_report_ne _ _)

/-- **The fault that is noted first is the first one of a worker.** By induction on the turns. -/
theorem exists_firstFrom (hdec : v.Decides f Good value) (hsound : crew.Sound f v Good)
    {schedule : List Nat} {site : FaultSite α} (hnone : crew.canvas.firstFault = none)
    (hsite : (crew.run f v schedule).canvas.firstFault = some site) :
    ∃ (j : Nat) (w : Worker κ), crew.workers[j]? = some w ∧
      v.FirstFrom value w.next w.stop site := by
  induction schedule generalizing crew with
  | nil => cases hnone.symm.trans hsite
  | cons i schedule ih =>
    have hturned := turned f v crew i
    cases hturn : (crew.turn f v i).canvas.firstFault with
    | none =>
      obtain ⟨j, w', hw', hfirst⟩ := ih (hsound.turn hdec.toKeeps i) hturn hsite
      obtain ⟨w, hw, hfirst⟩ := hturned.firstFrom hdec hsound hturn hw' hfirst
      exact ⟨j, w, hw, hfirst⟩
    | some site' =>
      cases hsite.symm.trans (firstFault_run hturn schedule)
      obtain ⟨w, hw, hfirst⟩ := hturned.firstFrom_of_noted hdec hsound hnone hturn
      exact ⟨i, w, hw, hfirst⟩

/-! ## Evaluated pixels -/

/-- The places that one of the workers draws in the turns of a schedule, in order. -/
def drawnBy (f : φ) (v : View α) (crew : Crew α κ) (j : Nat) : List Nat → List Nat
  | [] => []
  | i :: schedule =>
    (if i = j then (crew.place? i).toList else []) ++ drawnBy f v (crew.turn f v i) j schedule

/-- A turn takes the first of the places that its worker is to evaluate, and none of another
worker's. -/
theorem Turned.course (hdec : v.Decides f Good value) (hsound : crew.Sound f v Good)
    (h : Turned f v crew i crew') {w : Worker κ} (hw : crew.workers[j]? = some w) :
    ∃ w', crew'.workers[j]? = some w' ∧
      v.course value w.left
        = (if i = j then (crew.place? i).toList else []) ++ v.course value w'.left := by
  by_cases hij : i = j
  · subst hij
    rw [if_pos rfl]
    cases h with
    | idle hplace =>
      rw [hplace]
      exact ⟨w, hw, rfl⟩
    | @painted u a c hu hlt he =>
      cases hu.symm.trans hw
      have hvalue : v.atPlace value w.next = .ok a := hdec.value_eq_ok (hsound.contexts hu) he
      refine ⟨_, getElem?_set_self hu _, ?_⟩
      rw [place?_eq hu hlt, Worker.left, View.course_ico hlt, hvalue]
      rfl
    | @faulted u fault c hu hlt he =>
      cases hu.symm.trans hw
      have hvalue : v.atPlace value w.next = .error fault :=
        hdec.value_eq_error (hsound.contexts hu) he
      refine ⟨_, getElem?_set_self hu _, ?_⟩
      rw [place?_eq hu hlt, Worker.left, View.course_ico hlt, hvalue, View.endsBand]
      cases fault.isArithmetic with
      | true => rfl
      | false =>
        have hleft : Worker.left ⟨c, w.stop, w.stop⟩ = [] := List.Ico.self_empty
        change [w.next] = [w.next] ++ v.course value (Worker.left ⟨c, w.stop, w.stop⟩)
        rw [hleft]
        rfl
  · rw [if_neg hij]
    cases h with
    | idle => exact ⟨w, hw, rfl⟩
    | painted | faulted => exact ⟨w, (getElem?_set_ne hij _).trans hw, rfl⟩

private theorem course_run (hdec : v.Decides f Good value) (hsound : crew.Sound f v Good)
    {w : Worker κ} (hw : crew.workers[j]? = some w) (schedule : List Nat) :
    ∃ w', (crew.run f v schedule).workers[j]? = some w' ∧
      v.course value w.left = crew.drawnBy f v j schedule ++ v.course value w'.left := by
  induction schedule generalizing crew w with
  | nil => exact ⟨w, hw, rfl⟩
  | cons i schedule ih =>
    obtain ⟨u, hu, hfirst⟩ := (turned f v crew i).course hdec hsound hw
    obtain ⟨w', hw', hrest⟩ := ih (hsound.turn hdec.toKeeps i) hu
    refine ⟨w', hw', ?_⟩
    rw [hfirst, hrest, drawnBy, List.append_assoc]

/-- **A band is evaluated up to the first fault that is not arithmetic**, by any schedule that lets
the workers finish. -/
theorem drawnBy_eq (hdec : v.Decides f Good value) {bands : List Band} {band : Band}
    (hband : bands[j]? = some band) {schedule : List Nat}
    (hdone : ((start f v.size bands).run f v schedule).Done) :
    (start f v.size bands).drawnBy f v j schedule
      = v.course value (band.places v.size.columns) := by
  have hw : (start f v.size bands).workers[j]? = some (Worker.start f v.size band) := by
    rw [start, List.getElem?_toArray, List.getElem?_map, hband]
    rfl
  obtain ⟨w', hw', hall⟩ := course_run hdec (sound_start hdec.toKeeps bands) hw schedule
  have hleft : w'.left = [] := List.Ico.eq_nil_of_le (hdone w' (Array.mem_of_getElem? hw'))
  rw [hleft, View.course, List.append_nil] at hall
  exact hall.symm

/-- The fault that is noted first by a crew at its start is the first one of a band. -/
theorem exists_isFirstFault (hdec : v.Decides f Good value) {bands : List Band}
    {schedule : List Nat} {site : FaultSite α}
    (hsite : ((start f v.size bands).run f v schedule).canvas.firstFault = some site) :
    ∃ band ∈ bands, ∃ column row, v.IsFirstFault value band column row site.fault ∧
      site.corner = v.pixelCorner column row := by
  obtain ⟨j, w, hw, hfirst⟩ := exists_firstFrom hdec (sound_start hdec.toKeeps bands) rfl hsite
  rw [start, List.getElem?_toArray, List.getElem?_map, Option.map_eq_some_iff] at hw
  obtain ⟨band, hband, rfl⟩ := hw
  exact ⟨band, List.mem_of_getElem? hband, hfirst.exists_isFirstFault⟩

end Crew

omit [Scalar α] in
theorem Canvas.outcome_of_firstFault {canvas : Canvas α} {site : FaultSite α}
    (h : canvas.firstFault = some site) : canvas.outcome = .error (.faultAt site) := by
  rw [outcome, h]

/-! ## Pictures of programs with faults -/

theorem RenderSettings.bands_one {s : RenderSettings α} (hone : s.workers = .one)
    (hsize : ¬s.view.size.IsEmpty) (hregion : s.view.region.IsFinite) :
    s.bands = .ok [⟨0, s.view.size.rows⟩] := by
  have hcount : Band.clampCount s.view.size.rows 1 = 1 := by
    rw [Band.clampCount]
    omega
  have hlt : Band.clampCount s.view.size.rows 1 * s.view.size.rows < Word.count :=
    Band.clampCount_mul_lt s.view.size.height.toNat_lt_size 1
  have hlist : Band.list? s.view.size.rows s.workers.count = some [⟨0, s.view.size.rows⟩] := by
    rw [hone, WorkerCount.one, Band.list?_eq hlt, hcount, List.range_one, List.map_singleton,
      Band.between, Band.boundary_zero, Band.boundary_self _ Nat.one_pos]
  rw [RenderSettings.bands, if_neg hsize, if_neg (not_not_intro hregion), hlist]

/-- A program that divides by the first coordinate, and leaves the quotient on the stack twice. -/
def twoQuotients : Program ℚ := ⟨[.pushConst 1, .pushVar .x, .binary .div, .dup], 2⟩

/-- Eight pixels, two of which touch the line of the points without a quotient. -/
def quotientsView : View ℚ := ⟨.ofCorners .comparing ⟨0, 0⟩ ⟨4, 2⟩, ⟨4, 2⟩, .down⟩

end ImplicitPlot
