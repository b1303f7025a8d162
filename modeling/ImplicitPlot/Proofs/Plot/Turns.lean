import Mathlib.Data.List.Perm.Subperm
import ImplicitPlot.Proofs.Plot.Bands
import ImplicitPlot.Proofs.Plot.Crew

/-!
# The turns of a crew

Which pixels a crew draws, and in which order, whatever the schedule (`Crew.drawn`). The places that
have been drawn and the places that are left are together the places that were left at the start: a
turn moves one place from the latter to the former. A fault that ends the work on a band drops the
rest of its places. So no schedule draws a pixel twice, and a schedule that lets all workers finish
skips a pixel only if there was a fault.

How far a worker has come depends on the number of its turns alone. So a schedule lets the workers
finish if it has as many turns for each as there are pixels in its band.
-/

namespace ImplicitPlot

/-! ## Places -/

section Places

variable {α κ : Type}

theorem Canvas.firstFault_report_ne (canvas : Canvas α) (site : FaultSite α) :
    (canvas.report site).firstFault ≠ none := by
  rw [report]
  cases canvas.firstFault <;> exact nofun

/-- The places that are left for a worker. -/
def Worker.left (w : Worker κ) : List Nat := List.Ico w.next w.stop

/-- The place that a worker draws in its next turn, if any is left. -/
def Worker.place? (w : Worker κ) : Option Nat := if w.next < w.stop then some w.next else none

namespace Crew

/-- The places that are left for the workers. -/
def left (crew : Crew α κ) : List Nat := crew.workers.toList.flatMap Worker.left

/-- Nothing is left for any worker. -/
def Done (crew : Crew α κ) : Prop := ∀ w ∈ crew.workers, w.stop ≤ w.next

instance (crew : Crew α κ) : Decidable crew.Done :=
  inferInstanceAs (Decidable (∀ w ∈ crew.workers, w.stop ≤ w.next))

/-- The place that is drawn in a turn of the given worker. -/
def place? (crew : Crew α κ) (i : Nat) : Option Nat := crew.workers[i]?.bind Worker.place?

variable {crew : Crew α κ} {i : Nat} {w : Worker κ}

theorem place?_eq (hw : crew.workers[i]? = some w) (hlt : w.next < w.stop) :
    crew.place? i = some w.next := by
  rw [place?, hw]
  exact if_pos hlt

private theorem remaining_eq_zero (h : crew.place? i = none) (hw : crew.workers[i]? = some w) :
    w.remaining = 0 := by
  rw [place?, hw] at h
  by_cases hlt : w.next < w.stop
  · rw [Option.bind_some, Worker.place?, if_pos hlt] at h
    cases h
  · exact Nat.sub_eq_zero_of_le (Nat.le_of_not_lt hlt)

theorem remaining_le_of_set {j next : Nat} {u : Worker κ} {context : κ}
    (hw : crew.workers[i]? = some w) (hnext : w.next + 1 ≤ next)
    (hu : (crew.workers.setIfInBounds i ⟨context, next, w.stop⟩)[j]? = some u) :
    ∃ w, crew.workers[j]? = some w ∧ u.remaining ≤ w.remaining - if i = j then 1 else 0 := by
  rw [Array.getElem?_setIfInBounds] at hu
  split at hu
  next hij =>
    subst hij
    split at hu
    · cases hu
      refine ⟨w, hw, ?_⟩
      rw [if_pos rfl, Worker.remaining, Worker.remaining, Nat.sub_sub]
      exact Nat.sub_le_sub_left hnext w.stop
    · cases hu
  next hij =>
    rw [if_neg hij]
    exact ⟨u, hu, Nat.le_refl _⟩

theorem Done.left_eq_nil (h : crew.Done) : crew.left = [] := by
  rw [left, List.flatMap_eq_nil_iff]
  intro w hw
  exact List.Ico.eq_nil_of_le (h w (Array.mem_toList_iff.mp hw))

private theorem exists_left_set (hw : crew.workers[i]? = some w) (w' : Worker κ)
    (canvas : Canvas α) :
    ∃ before after, crew.left = before ++ w.left ++ after ∧
      left ⟨crew.workers.setIfInBounds i w', canvas⟩ = before ++ w'.left ++ after := by
  obtain ⟨hi, rfl⟩ := Array.getElem?_eq_some_iff.mp hw
  obtain ⟨before, after, hl, -, hset⟩ :
      ∃ before after, _ ∧ _ ∧ crew.workers.toList.set i w' = before ++ w' :: after :=
    List.exists_of_set hi
  refine ⟨before.flatMap Worker.left, after.flatMap Worker.left, ?_, ?_⟩
  · rw [left, hl, List.flatMap_append, List.flatMap_cons, List.append_assoc]
    rfl
  · rw [left, Array.toList_setIfInBounds, hset, List.flatMap_append, List.flatMap_cons,
      List.append_assoc]

theorem exists_left_perm (hw : crew.workers[i]? = some w) (hlt : w.next < w.stop) (w' : Worker κ)
    (canvas : Canvas α) :
    ∃ before after, (w.next :: (before ++ List.Ico (w.next + 1) w.stop ++ after)).Perm crew.left ∧
      left ⟨crew.workers.setIfInBounds i w', canvas⟩ = before ++ w'.left ++ after := by
  obtain ⟨before, after, hleft, hset⟩ := exists_left_set hw w' canvas
  refine ⟨before, after, ?_, hset⟩
  rw [hleft, Worker.left, List.Ico.eq_cons hlt, List.append_assoc, List.append_assoc]
  exact List.perm_middle.symm

end Crew

end Places

variable {φ α κ : Type} [Plottable φ α κ] [Scalar α]

namespace Crew

/-- The places that are drawn in the turns of a schedule, in order. -/
def drawn (f : φ) (v : View α) (crew : Crew α κ) : List Nat → List Nat
  | [] => []
  | i :: schedule => (crew.place? i).toList ++ drawn f v (crew.turn f v i) schedule

/-! ## One turn -/

/-- All that a turn of a worker may do to the crew. -/
inductive Turned (f : φ) (v : View α) (crew : Crew α κ) (i : Nat) : Crew α κ → Prop
  /-- There is no such worker, or nothing is left for it. -/
  | idle (hplace : crew.place? i = none) : Turned f v crew i crew
  | painted {w : Worker κ} {a : Interval α} {c : κ} (hw : crew.workers[i]? = some w)
      (hlt : w.next < w.stop)
      (he : v.evaluate f (w.next % v.size.columns) (w.next / v.size.columns) w.context = .ok a c) :
      Turned f v crew i ⟨crew.workers.setIfInBounds i ⟨c, w.next + 1, w.stop⟩,
        crew.canvas.paint w.next (.classify a)⟩
  | faulted {w : Worker κ} {fault : Fault α} {c : κ} (hw : crew.workers[i]? = some w)
      (hlt : w.next < w.stop)
      (he : v.evaluate f (w.next % v.size.columns) (w.next / v.size.columns) w.context
        = .error fault c) :
      Turned f v crew i
        ⟨crew.workers.setIfInBounds i
            ⟨c, if fault.isArithmetic then w.next + 1 else w.stop, w.stop⟩,
          crew.canvas.report
            ⟨fault, v.pixelCorner (w.next % v.size.columns) (w.next / v.size.columns)⟩⟩

theorem turned (f : φ) (v : View α) (crew : Crew α κ) (i : Nat) :
    Turned f v crew i (crew.turn f v i) := by
  obtain ⟨workers, canvas⟩ := crew
  rw [turn]
  cases hw : workers[i]? with
  | none =>
    refine .idle ?_
    rw [place?, hw]
    rfl
  | some w =>
    obtain ⟨hdone, ht⟩ | ⟨a, c, hlt, he, ht⟩ | ⟨fault, c, hlt, he, ht⟩ := w.turn_cases f v canvas
    · -- The worker is put back as it was.
      have hsame : workers.setIfInBounds i w = workers := by
        obtain ⟨hi, rfl⟩ := Array.getElem?_eq_some_iff.mp hw
        rw [Array.setIfInBounds, dif_pos hi, Array.set_getElem_self]
      simp only [ht, hsame]
      refine .idle ?_
      rw [place?, hw]
      exact if_neg (Nat.not_lt.mpr hdone)
    · simp only [ht]
      exact .painted hw hlt he
    · simp only [ht]
      exact .faulted hw hlt he

variable {f : φ} {v : View α} {crew crew' : Crew α κ} {i : Nat}

/-! ## Faults stay noted -/

/-- A fault that has been noted is not replaced in any turn. -/
theorem Turned.firstFault (h : Turned f v crew i crew') {site : FaultSite α}
    (hsite : crew.canvas.firstFault = some site) : crew'.canvas.firstFault = some site := by
  cases h with
  | idle | painted => exact hsite
  | faulted =>
    rw [Canvas.report, hsite]
    rfl

theorem firstFault_run {site : FaultSite α} (hsite : crew.canvas.firstFault = some site)
    (schedule : List Nat) : (crew.run f v schedule).canvas.firstFault = some site := by
  induction schedule generalizing crew with
  | nil => exact hsite
  | cons i schedule ih => exact ih ((turned f v crew i).firstFault hsite)

/-- Where no fault is noted after a schedule, none was noted before. -/
theorem firstFault_eq_none {schedule : List Nat}
    (h : (crew.run f v schedule).canvas.firstFault = none) : crew.canvas.firstFault = none := by
  cases hsite : crew.canvas.firstFault with
  | none => rfl
  | some site =>
    rw [firstFault_run hsite] at h
    cases h

/-! ## No place twice, no place skipped -/

/-- A turn draws a place that was left, and leaves no other places than before. If the turn ends
without a fault, the other places that were left are left still. -/
theorem Turned.left (h : Turned f v crew i crew') :
    ((crew.place? i).toList ++ crew'.left).Subperm crew.left ∧
      (crew'.canvas.firstFault = none → ((crew.place? i).toList ++ crew'.left).Perm crew.left) := by
  cases h with
  | idle hplace =>
    rw [hplace]
    exact ⟨List.Subperm.refl _, fun _ ↦ .refl _⟩
  | painted hw hlt he =>
    obtain ⟨before, after, hperm, hset⟩ := exists_left_perm hw hlt _ _
    rw [place?_eq hw hlt, hset]
    exact ⟨hperm.subperm, fun _ ↦ hperm⟩
  | @faulted w fault c hw hlt he =>
    obtain ⟨before, after, hperm, hset⟩ := exists_left_perm hw hlt _ _
    rw [place?_eq hw hlt, hset]
    refine ⟨?_, fun hnone ↦ absurd hnone (Canvas.firstFault_report_ne _ _)⟩
    -- A fault that is not arithmetic leaves nothing for the worker.
    have hsub : (List.Ico (if fault.isArithmetic then w.next + 1 else w.stop) w.stop).Sublist
        (List.Ico (w.next + 1) w.stop) := by
      split
      · exact .refl _
      · rw [List.Ico.self_empty]
        exact List.nil_sublist _
    have hall := (hsub.append_left before).append_right after
    exact (hall.cons_cons w.next).subperm.trans hperm.subperm

/-- **No place is drawn twice.** By induction on the turns: what has been drawn and what is left are
places that were left. -/
theorem drawn_subperm (schedule : List Nat) :
    (crew.drawn f v schedule ++ (crew.run f v schedule).left).Subperm crew.left := by
  induction schedule generalizing crew with
  | nil => exact List.Subperm.refl _
  | cons i schedule ih =>
    rw [drawn, List.append_assoc]
    exact ((List.subperm_append_left _).mpr ih).trans (turned f v crew i).left.1

/-- **No place is skipped** without a fault. -/
theorem drawn_perm {schedule : List Nat}
    (hnone : (crew.run f v schedule).canvas.firstFault = none) :
    (crew.drawn f v schedule ++ (crew.run f v schedule).left).Perm crew.left := by
  induction schedule generalizing crew with
  | nil => exact .refl _
  | cons i schedule ih =>
    rw [drawn, List.append_assoc]
    exact ((ih hnone).append_left _).trans ((turned f v crew i).left.2 (firstFault_eq_none hnone))

/-! ## Workers that finish -/

theorem Turned.remaining_le (h : Turned f v crew i crew') {j : Nat} {u : Worker κ}
    (hu : crew'.workers[j]? = some u) :
    ∃ w, crew.workers[j]? = some w ∧ u.remaining ≤ w.remaining - if i = j then 1 else 0 := by
  cases h with
  | idle hplace =>
    refine ⟨u, hu, ?_⟩
    split
    next hij =>
      subst hij
      rw [remaining_eq_zero hplace hu]
    next => exact Nat.le_refl _
  | painted hw hlt => exact remaining_le_of_set hw (Nat.le_refl _) hu
  | faulted hw hlt =>
    refine remaining_le_of_set hw ?_ hu
    split
    · exact Nat.le_refl _
    · exact hlt

private theorem remaining_run_le {schedule : List Nat} {j : Nat} {u : Worker κ}
    (hu : (crew.run f v schedule).workers[j]? = some u) :
    ∃ w, crew.workers[j]? = some w ∧ u.remaining ≤ w.remaining - schedule.count j := by
  induction schedule generalizing crew with
  | nil => exact ⟨u, hu, Nat.le_refl _⟩
  | cons i schedule ih =>
    obtain ⟨w', hw', hle'⟩ := ih hu
    obtain ⟨w, hw, hle⟩ := (turned f v crew i).remaining_le hw'
    refine ⟨w, hw, ?_⟩
    rw [List.count_cons]
    simp only [beq_iff_eq]
    omega

theorem done_run {schedule : List Nat}
    (h : ∀ j w, crew.workers[j]? = some w → w.remaining ≤ schedule.count j) :
    (crew.run f v schedule).Done := by
  intro u hu
  obtain ⟨j, hj⟩ := Array.mem_iff_getElem?.mp hu
  obtain ⟨w, hw, hle⟩ := remaining_run_le hj
  have hcount := h j w hw
  rw [Worker.remaining] at hle
  omega

theorem done_run_inTurn : (crew.run f v crew.inTurn).Done := by
  refine done_run fun j w hw ↦ List.replicate_sublist_iff.mp ?_
  rw [inTurn, List.flatMap_def]
  refine List.sublist_flatten_of_mem (List.mem_map.mpr ⟨(w, j), ?_, rfl⟩)
  rw [List.mk_mem_zipIdx_iff_getElem?, Array.getElem?_toList]
  exact hw

end Crew

end ImplicitPlot
