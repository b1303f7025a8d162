import ImplicitPlot.Proofs.Plot.EdgeErrors

/-!
# What the pixels cover

The first pixel starts at a corner of the region, and neighbours share their edges; so the pixels
cover the region as far as the last edges reach (`View.Reaches`). The last edges are computed from
that corner, with rounding, and need not reach the far corner. What they may be short of it is
bounded by three roundings of the extent of the region and half of the least positive number for
each pixel (`View.ClearOfFarEdges`).
-/

namespace ImplicitPlot

open Scalar (Agree IsFinite IsNaN Lawful)

namespace Region

variable {α : Type} [Scalar α]

/-- The point lies in the region, whose edges belong to it. -/
def Contains (r : Region α) (p : Point α) : Prop :=
  (r.min.x ≤ p.x ∧ p.x ≤ r.max.x) ∧ r.min.y ≤ p.y ∧ p.y ≤ r.max.y

instance (r : Region α) (p : Point α) : Decidable (r.Contains p) :=
  inferInstanceAs (Decidable (_ ∧ _))

end Region

/-- Where neighbouring edges are in order, every edge but the first one is so with the last one. -/
theorem related_to_last {α : Type} {R : α → α → Prop} {edge : ℕ → α} {i n : ℕ}
    (htrans : ∀ {a b c}, R a b → R b c → R a c)
    (hadjacent : ∀ i < n, R (edge i) (edge (i + 1)) ∧ R (edge (i + 1)) (edge (i + 1)))
    (hi : i < n) : R (edge (i + 1)) (edge n) := by
  induction n with
  | zero => exact absurd hi i.not_lt_zero
  | succ n ih =>
    rcases Nat.lt_succ_iff_lt_or_eq.mp hi with hlt | rfl
    · exact htrans (ih (fun j hj ↦ hadjacent j (Nat.lt_succ_of_lt hj)) hlt)
        (hadjacent n n.lt_succ_self).1
    · exact (hadjacent i i.lt_succ_self).2

namespace View

section Definitions

variable {α : Type} [Scalar α]

/-- The point lies in a pixel of the image. -/
def Covers (v : View α) (p : Point α) : Prop :=
  ∃ column < v.size.columns, ∃ row < v.size.rows, ∃ x y,
    v.pixelRect column row = .ok (x, y) ∧ x.Contains p.x ∧ y.Contains p.y

/-- The last edges reach the point. -/
def Reaches (v : View α) (p : Point α) : Prop :=
  p.x ≤ v.columnEdge v.size.columns ∧
    match v.yAxis with
    | .up => v.rowEdge v.size.rows ≤ p.y
    | .down => p.y ≤ v.rowEdge v.size.rows

/-- The corner of the region opposite to the one where the first pixel starts. -/
def farCorner (v : View α) : Point α :=
  ⟨v.region.max.x,
    match v.yAxis with
    | .up => v.region.min.y
    | .down => v.region.max.y⟩

end Definitions

open Binary64

/-- The point is not within the margin of the far edges: three roundings of the extent and half of
the least positive number for each pixel. -/
def ClearOfFarEdges (v : View Float) (p : Point Float) : Prop :=
  units (unpacked p.x) + margin v.region.min.x v.region.max.x v.size.columns
      ≤ units (unpacked v.region.max.x) ∧
    match v.yAxis with
    | .up => units (unpacked v.region.min.y)
        + margin v.region.min.y v.region.max.y v.size.rows ≤ units (unpacked p.y)
    | .down => units (unpacked p.y)
        + margin v.region.min.y v.region.max.y v.size.rows ≤ units (unpacked v.region.max.y)

namespace Spanned

variable {v : View Float} {p : Point Float} {i : Nat}

/-! ## The first and the last edges -/

private theorem rowEdge_zero_agree (h : v.Spanned) :
    match v.yAxis with
    | .up => Agree (v.rowEdge 0) v.region.max.y
    | .down => Agree (v.rowEdge 0) v.region.min.y := by
  obtain ⟨-, -, hheight⟩ := h.pixelSize
  unfold rowEdge
  cases v.yAxis with
  | up => exact sub_no_steps h.finite.2.1.2 hheight
  | down => exact add_no_steps h.finite.1.2 hheight

theorem columnEdge_le_last (h : v.Spanned) (hi : i < v.size.columns) :
    v.columnEdge (i + 1) ≤ v.columnEdge v.size.columns := by
  have hcounts := h.counts
  refine related_to_last (R := (· ≤ ·)) Lawful.le_trans (fun j hj ↦ ?_) hi
  have hle := h.columnInterval_le (i := j) (by omega)
  exact ⟨hle, not_not.mp (Lawful.not_isNaN_of_le hle).2⟩

theorem rowEdge_le_last (h : v.Spanned) (hi : i < v.size.rows) :
    match v.yAxis with
    | .up => v.rowEdge v.size.rows ≤ v.rowEdge (i + 1)
    | .down => v.rowEdge (i + 1) ≤ v.rowEdge v.size.rows := by
  have hcounts := h.counts
  have hle {j : Nat} (hj : j < v.size.rows) := h.rowInterval_le (i := j) (by omega)
  unfold rowInterval at hle
  cases hy : v.yAxis with
  | up =>
    simp only [hy] at hle
    exact related_to_last (R := (· ≥ ·)) (fun hab hbc ↦ Lawful.le_trans hbc hab)
      (fun j hj ↦ ⟨hle hj, not_not.mp (Lawful.not_isNaN_of_le (hle hj)).1⟩) hi
  | down =>
    simp only [hy] at hle
    exact related_to_last (R := (· ≤ ·)) Lawful.le_trans
      (fun j hj ↦ ⟨hle hj, not_not.mp (Lawful.not_isNaN_of_le (hle hj)).2⟩) hi

/-- **The pixels cover what the last edges reach.** -/
theorem covers_iff (h : v.Spanned) (hp : v.region.Contains p) : v.Covers p ↔ v.Reaches p := by
  obtain ⟨⟨hminx, hmaxx⟩, hminy, hmaxy⟩ := hp
  constructor
  · rintro ⟨column, hcolumn, row, hrow, x, y, hrect, hx, hy⟩
    obtain ⟨rfl, rfl⟩ := h.rect_eq hcolumn hrow hrect
    refine ⟨Lawful.le_trans hx.2 (h.columnEdge_le_last hcolumn), ?_⟩
    have hlast := h.rowEdge_le_last hrow
    rw [rowInterval] at hy
    cases hdirection : v.yAxis with
    | up =>
      simp only [hdirection] at hy hlast ⊢
      exact Lawful.le_trans hlast hy.1
    | down =>
      simp only [hdirection] at hy hlast ⊢
      exact Lawful.le_trans hy.2 hlast
  · rintro ⟨hx, hy⟩
    have hfirst : v.columnEdge 0 ≤ p.x :=
      Lawful.le_trans (add_no_steps h.finite.1.1 h.pixelSize.1.2).1 hminx
    obtain ⟨column, hcolumn, hx⟩ := h.exists_column hfirst hx
    have hcorner := h.rowEdge_zero_agree
    have hbetween : match v.yAxis with
        | .up => v.rowEdge v.size.rows ≤ p.y ∧ p.y ≤ v.rowEdge 0
        | .down => v.rowEdge 0 ≤ p.y ∧ p.y ≤ v.rowEdge v.size.rows := by
      cases hdirection : v.yAxis with
      | up =>
        simp only [hdirection] at hy hcorner ⊢
        exact ⟨hy, Lawful.le_trans hmaxy hcorner.2⟩
      | down =>
        simp only [hdirection] at hy hcorner ⊢
        exact ⟨Lawful.le_trans hcorner.1 hminy, hy⟩
    obtain ⟨row, hrow, hy⟩ := h.exists_row hbetween
    exact ⟨column, hcolumn, row, hrow, _, _, h.pixelRect_eq hcolumn hrow, hx, hy⟩

private theorem reaches_of_clear (h : v.Spanned) (hp : v.region.Contains p)
    (hclear : v.ClearOfFarEdges p) :
    v.Reaches p := by
  obtain ⟨⟨hminx, hmaxx⟩, hminy, hmaxy⟩ := hp
  obtain ⟨hcolumns, hrows⟩ := h.divided
  obtain ⟨hx, hy⟩ := hclear
  have hfx := isFinite_of_le_of_le hminx hmaxx hcolumns.lower_finite hcolumns.upper_finite
  have hfy := isFinite_of_le_of_le hminy hmaxy hrows.lower_finite hrows.upper_finite
  refine ⟨hcolumns.le_add_steps hfx hx, ?_⟩
  unfold rowEdge
  cases hdirection : v.yAxis with
  | up =>
    simp only [hdirection] at hy ⊢
    exact hrows.sub_steps_le hfy hy
  | down =>
    simp only [hdirection] at hy ⊢
    exact hrows.le_add_steps hfy hy

/-- The far corner is a point of the region, and the last edges reach all of them if they reach
it. -/
theorem reaches_farCorner_iff (h : v.Spanned) :
    (∀ p, v.region.Contains p → v.Reaches p) ↔ v.Reaches v.farCorner := by
  obtain ⟨hcolumns, hrows⟩ := h.divided
  have hlowery := Scalar.le_refl_of_isFinite hrows.lower_finite
  have huppery := Scalar.le_refl_of_isFinite hrows.upper_finite
  have hupperx := Scalar.le_refl_of_isFinite hcolumns.upper_finite
  constructor
  · intro hall
    refine hall v.farCorner ⟨⟨h.ordered.1, hupperx⟩, ?_⟩
    rw [farCorner]
    cases v.yAxis with
    | up => exact ⟨hlowery, h.ordered.2⟩
    | down => exact ⟨h.ordered.2, huppery⟩
  · rintro ⟨hx, hy⟩ p ⟨⟨-, hpx⟩, hpy, hpy'⟩
    refine ⟨Lawful.le_trans hpx hx, ?_⟩
    rw [farCorner] at hy
    cases hdirection : v.yAxis with
    | up =>
      simp only [hdirection] at hy ⊢
      exact Lawful.le_trans hy hpy
    | down =>
      simp only [hdirection] at hy ⊢
      exact Lawful.le_trans hpy' hy

end Spanned

/-- **What the pixels cover.** Over every finite region, with every image that has pixels and in
both directions, a point of the region is in a pixel exactly if the last edges reach it, and the
pixels cover the region exactly if the last edges reach the far corner. These edges are rounded, so
they need not; but every point is covered that is away from the far edges by three roundings of the
extent and half of the least positive number for each pixel. -/
theorem coverage_of_isFinite (order : CornerOrder Float) (horder : order.Ascends)
    (a b : Point Float) (size : ImageSize) (yAxis : YAxis)
    (hregion : (Region.ofCorners order a b).IsFinite) (hsize : ¬size.IsEmpty) :
    let v : View Float := ⟨.ofCorners order a b, size, yAxis⟩
    (∀ p, v.region.Contains p → (v.Covers p ↔ v.Reaches p)) ∧
      ((∀ p, v.region.Contains p → v.Covers p) ↔ v.Reaches v.farCorner) ∧
      ∀ p, v.region.Contains p → v.ClearOfFarEdges p → v.Covers p := by
  intro v
  have h : v.Spanned := .ofCorners horder yAxis hregion hsize
  refine ⟨fun p hp ↦ h.covers_iff hp, ?_, fun p hp hclear ↦ ?_⟩
  · rw [← h.reaches_farCorner_iff]
    exact forall₂_congr fun p hp ↦ h.covers_iff hp
  · exact (h.covers_iff hp).mpr (h.reaches_of_clear hp hclear)

/-- One pixel over a region whose width has one bit too many for a number, and is rounded down. -/
def oddWidth : View Float :=
  ⟨.ofCorners .comparing ⟨-1, 0⟩ ⟨9007199254740992, 1⟩, ⟨1, 1⟩, .up⟩

theorem oddWidth_covers :
    oddWidth.Covers ⟨9007199254740988, 0.5⟩ ∧
      ¬∀ p, oddWidth.region.Contains p → oddWidth.Covers p := by
  obtain ⟨-, hcorner, hclear⟩ := coverage_of_isFinite .comparing CornerOrder.comparing_ascends
    ⟨-1, 0⟩ ⟨9007199254740992, 1⟩ ⟨1, 1⟩ .up (by decide +kernel) (by decide)
  refine ⟨hclear _ (by decide +kernel) ⟨by decide +kernel, by decide +kernel⟩, fun hall ↦ ?_⟩
  have hx : ¬oddWidth.farCorner.x ≤ oddWidth.columnEdge 1 := by decide +kernel
  exact hx (hcorner.mp hall).1

/-- The far edge is a part of the region, and no pixel contains it. -/
theorem oddWidth_misses_farEdge :
    oddWidth.region.IsFinite ∧ ¬oddWidth.size.IsEmpty ∧
      oddWidth.region.Contains ⟨9007199254740992, 0.5⟩ ∧
      ¬oddWidth.Covers ⟨9007199254740992, 0.5⟩ := by
  refine ⟨by decide +kernel, by decide, by decide +kernel, ?_⟩
  rintro ⟨column, hcolumn, row, hrow, x, y, hrect, hx, -⟩
  obtain rfl : column = 0 := Nat.lt_one_iff.mp hcolumn
  obtain rfl : row = 0 := Nat.lt_one_iff.mp hrow
  have hpixel : oddWidth.pixelRect 0 0 = .ok (⟨-1, 9007199254740991⟩, ⟨0, 1⟩) := by
    decide +kernel
  cases hpixel.symm.trans hrect
  have hbeyond : ¬(9007199254740992 : Float) ≤ 9007199254740991 := by decide +kernel
  exact hbeyond hx.2

end View

end ImplicitPlot
