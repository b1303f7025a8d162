import ImplicitPlot.Proofs.Plot.EdgeErrors

/-!
# Finite bounds

The region is checked to be finite before it is drawn, its extent included. All edges of pixels are
finite then but the last column edge and the last row edge: the shares of the region that lead there
are rounded, and if they are rounded up at the greatest numbers, they overflow
(`View.Spanned.isFinite_columnEdge`, `View.Spanned.isFinite_rowEdge`). The last edges are finite
where the region stays away from the greatest numbers by a small part of them.
-/

namespace ImplicitPlot

open Scalar (IsFinite IsNaN Lawful)

namespace View

open Binary64

/-- All bounds of all pixels are finite. -/
def PixelsBounded {α : Type} [Scalar α] (v : View α) : Prop :=
  ∀ column < v.size.columns, ∀ row < v.size.rows, ∃ x y,
    v.pixelRect column row = .ok (x, y) ∧ x.IsBounded ∧ y.IsBounded

namespace Spanned

variable {v : View Float} {column row i : Nat}

/-! ## Finite edges -/

theorem isFinite_columnEdge (h : v.Spanned) (hi : i < v.size.columns) :
    IsFinite (v.columnEdge i) :=
  (h.divided.1.isFinite_edge_of_lt hi).1

theorem isFinite_rowEdge (h : v.Spanned) (hi : i < v.size.rows) : IsFinite (v.rowEdge i) := by
  obtain ⟨hadd, hsub⟩ := h.divided.2.isFinite_edge_of_lt hi
  rw [rowEdge]
  cases v.yAxis with
  | up => exact hsub
  | down => exact hadd

private theorem isFinite_last_edges (h : v.Spanned)
    (hx : Moderate v.region.min.x v.region.max.x) (hy : Moderate v.region.min.y v.region.max.y) :
    IsFinite (v.columnEdge v.size.columns) ∧ IsFinite (v.rowEdge v.size.rows) := by
  obtain ⟨hadd, hsub⟩ := h.divided.2.isFinite_last_edge hy
  refine ⟨(h.divided.1.isFinite_last_edge hx).1, ?_⟩
  rw [rowEdge]
  cases v.yAxis with
  | up => exact hsub
  | down => exact hadd

/-! ## Finite bounds -/

/-- The bounds of a pixel are numbers. -/
theorem not_hasNaN (h : v.Spanned) (hcolumn : column < v.size.columns) (hrow : row < v.size.rows) :
    ¬(v.columnInterval column).HasNaN ∧ ¬(v.rowInterval row).HasNaN := by
  have hcounts := h.counts
  obtain ⟨hxl, hxu⟩ := Lawful.not_isNaN_of_le (h.columnInterval_le (i := column) (by omega))
  obtain ⟨hyl, hyu⟩ := Lawful.not_isNaN_of_le (h.rowInterval_le (i := row) (by omega))
  exact ⟨not_or.mpr ⟨hxl, hxu⟩, not_or.mpr ⟨hyl, hyu⟩⟩

@[simp] theorem rowInterval_isBounded_iff :
    (v.rowInterval row).IsBounded ↔ IsFinite (v.rowEdge row) ∧ IsFinite (v.rowEdge (row + 1)) := by
  rw [rowInterval]
  cases v.yAxis with
  | up => exact and_comm
  | down => exact Iff.rfl

theorem pixelsBounded_iff (h : v.Spanned) :
    v.PixelsBounded ↔
      IsFinite (v.columnEdge v.size.columns) ∧ IsFinite (v.rowEdge v.size.rows) := by
  obtain ⟨⟨hcolumns, -⟩, hrows, -⟩ := h.counts
  constructor
  · intro hall
    obtain ⟨x, y, hrect, hx, hy⟩ := hall _ (Nat.sub_one_lt_of_lt hcolumns) _
      (Nat.sub_one_lt_of_lt hrows)
    obtain ⟨rfl, rfl⟩ := h.rect_eq (Nat.sub_one_lt_of_lt hcolumns) (Nat.sub_one_lt_of_lt hrows)
      hrect
    have hlast := hx.2
    have hlast' := (rowInterval_isBounded_iff.mp hy).2
    rw [Nat.sub_add_cancel hrows] at hlast'
    rw [columnInterval, Nat.sub_add_cancel hcolumns] at hlast
    exact ⟨hlast, hlast'⟩
  · rintro ⟨hlast, hlast'⟩ column hcolumn row hrow
    have hcolumns : ∀ i < v.size.columns + 1, IsFinite (v.columnEdge i) :=
      Nat.forall_lt_succ_right.mpr ⟨fun i hi ↦ h.isFinite_columnEdge hi, hlast⟩
    have hrows : ∀ i < v.size.rows + 1, IsFinite (v.rowEdge i) :=
      Nat.forall_lt_succ_right.mpr ⟨fun i hi ↦ h.isFinite_rowEdge hi, hlast'⟩
    refine ⟨_, _, h.pixelRect_eq hcolumn hrow, ⟨?_, ?_⟩, rowInterval_isBounded_iff.mpr ⟨?_, ?_⟩⟩
    · exact hcolumns _ (Nat.lt_succ_of_lt hcolumn)
    · exact hcolumns _ (Nat.succ_lt_succ hcolumn)
    · exact hrows _ (Nat.lt_succ_of_lt hrow)
    · exact hrows _ (Nat.succ_lt_succ hrow)

theorem isFinite_rowInterval (h : v.Spanned) (hrow : row < v.size.rows) :
    match v.yAxis with
    | .up => IsFinite (v.rowInterval row).upper ∧
        (row + 1 < v.size.rows → IsFinite (v.rowInterval row).lower)
    | .down => IsFinite (v.rowInterval row).lower ∧
        (row + 1 < v.size.rows → IsFinite (v.rowInterval row).upper) := by
  rw [rowInterval]
  cases v.yAxis <;> exact ⟨h.isFinite_rowEdge hrow, h.isFinite_rowEdge⟩

end Spanned

/-- **Bounds of pixels are finite up to the last edges.** Over every finite region, with every image
that has pixels and in both directions, every bound of a pixel is a number, and all bounds are
finite but those at the last column edge and the last row edge. All of them are finite exactly if
these two edges are, for which it is enough that the region and its extent stay below the greatest
number by a part in `2 ^ 50` of it. -/
theorem finite_bounds_of_isFinite (order : CornerOrder Float) (horder : order.Ascends)
    (a b : Point Float) (size : ImageSize) (yAxis : YAxis)
    (hregion : (Region.ofCorners order a b).IsFinite) (hsize : ¬size.IsEmpty) :
    let v : View Float := ⟨.ofCorners order a b, size, yAxis⟩
    (∀ column < size.columns, ∀ row < size.rows, ∃ x y, v.pixelRect column row = .ok (x, y) ∧
      (¬x.HasNaN ∧ ¬y.HasNaN) ∧
      (IsFinite x.lower ∧ (column + 1 < size.columns → IsFinite x.upper)) ∧
      match yAxis with
      | .up => IsFinite y.upper ∧ (row + 1 < size.rows → IsFinite y.lower)
      | .down => IsFinite y.lower ∧ (row + 1 < size.rows → IsFinite y.upper)) ∧
    (v.PixelsBounded ↔ IsFinite (v.columnEdge size.columns) ∧ IsFinite (v.rowEdge size.rows)) ∧
    (Moderate v.region.min.x v.region.max.x → Moderate v.region.min.y v.region.max.y →
      v.PixelsBounded) := by
  intro v
  have h : v.Spanned := .ofCorners horder yAxis hregion hsize
  refine ⟨fun column hcolumn row hrow ↦ ?_, h.pixelsBounded_iff, fun hx hy ↦ ?_⟩
  · exact ⟨_, _, h.pixelRect_eq hcolumn hrow, h.not_hasNaN hcolumn hrow,
      ⟨h.isFinite_columnEdge hcolumn, h.isFinite_columnEdge⟩, h.isFinite_rowInterval hrow⟩
  · exact h.pixelsBounded_iff.mpr (h.isFinite_last_edges hx hy)

theorem widestThirds_bounds :
    (∃ x y, widestThirds.pixelRect 1 0 = .ok (x, y) ∧ IsFinite x.upper) ∧
      ¬widestThirds.PixelsBounded ∧
      (⟨.default .comparing, ⟨512, 512⟩, .down⟩ : View Float).PixelsBounded := by
  obtain ⟨hpixels, hbounded, -⟩ := finite_bounds_of_isFinite .comparing
    CornerOrder.comparing_ascends ⟨0, 1⟩ ⟨1.7976931348623157e308, 0⟩ ⟨3, 2⟩ .up (by decide +kernel)
    (by decide)
  obtain ⟨-, -, hmoderate⟩ := finite_bounds_of_isFinite .comparing CornerOrder.comparing_ascends
    ⟨-10.0, -10.0⟩ ⟨10.0, 10.0⟩ ⟨512, 512⟩ .down (by decide +kernel) (by decide)
  refine ⟨?_, fun hall ↦ ?_, hmoderate ?_ ?_⟩
  · obtain ⟨x, y, hrect, -, hx, -⟩ := hpixels 1 (by decide) 0 (by decide)
    exact ⟨x, y, hrect, hx.2 (by decide)⟩
  · have hlast : ¬IsFinite (widestThirds.columnEdge 3) := by decide +kernel
    exact hlast (hbounded.mp hall).1
  · exact ⟨by decide +kernel, by decide +kernel, by decide +kernel⟩
  · exact ⟨by decide +kernel, by decide +kernel, by decide +kernel⟩

/-- The region is accepted, and its last column ends at infinity. -/
theorem widestThirds_overflows :
    widestThirds.region.IsFinite ∧ ¬widestThirds.size.IsEmpty ∧
      ∃ x y, widestThirds.pixelRect 2 0 = .ok (x, y) ∧ ¬IsFinite x.upper := by
  have hspanned : widestThirds.Spanned :=
    .ofCorners CornerOrder.comparing_ascends _ (by decide +kernel) (by decide)
  exact ⟨hspanned.finite, hspanned.nonempty, _, _, hspanned.pixelRect_eq (by decide) (by decide),
    by decide +kernel⟩

end View

end ImplicitPlot
