import ImplicitPlot.Proofs.Interval.Inclusion
import ImplicitPlot.Proofs.Plot.PixelEdges
import ImplicitPlot.Proofs.Scalar.Halves

/-!
# Where predicates are sampled

A predicate is tested at the midpoints of the two sides of a pixel. The midpoint is half of the sum
of the bounds, so it lies between them as long as the sum is finite, and is infinite otherwise
(`Interval.contains_midpoint_iff`). A region may be finite and hold pixels whose bounds have no
finite sum: there the predicate is tested at infinity.
-/

namespace ImplicitPlot

open Scalar (IsFinite IsNaN Lawful)

open Binary64

namespace Interval

variable {a : Interval Float}

/-- **When the midpoint lies between the bounds.** -/
theorem contains_midpoint_iff (hvalid : a.Valid) (hbounded : a.IsBounded) :
    a.Contains a.midpoint ↔ IsFinite (a.lower + a.upper) := by
  constructor
  · rintro ⟨hlower, hupper⟩
    have hmidpoint : IsFinite a.midpoint :=
      isFinite_of_le_of_le hlower hupper hbounded.1 hbounded.2
    exact isFinite_of_isFinite_half
      (not_isNaN_add hbounded.1 (Lawful.not_isNaN_of_isFinite hbounded.2)) hmidpoint
  · exact half_sum_between hbounded.1 hbounded.2 (hvalid.lower_le_upper hbounded)

theorem isFinite_add_of_contains_zero (hbounded : a.IsBounded) (hzero : a.Contains 0) :
    IsFinite (a.lower + a.upper) := by
  have hlower : (units (unpacked a.lower) : ℚ) ≤ 0 := by
    exact_mod_cast (le_iff_units_le hbounded.1 isFinite_zero).mp hzero.1
  have hupper : (0 : ℚ) ≤ units (unpacked a.upper) := by
    exact_mod_cast units_nonneg hzero.2 hbounded.2
  have habove := (abs_lt.mp (abs_units_lt hbounded.1)).1
  have hbelow := (abs_lt.mp (abs_units_lt hbounded.2)).2
  rw [isFinite_add_iff hbounded.1 hbounded.2]
  exact abs_lt.mpr ⟨by linarith, by linarith⟩

end Interval

namespace Predicate

/-- Over the rectangle, every predicate is tested at the same point of it. -/
def SamplesInside {α : Type} [Scalar α] (x y : Interval α) : Prop :=
  ∃ t u, x.Contains t ∧ y.Contains u ∧
    ∀ p : Predicate α, p.onRectangle x y = if p.test t u then .point 0 else .point 1

/-- The test of belonging to the rectangle tells whether it is made at a point of the rectangle. -/
theorem samplesInside_iff {x y : Interval Float} :
    SamplesInside x y ↔ x.Contains x.midpoint ∧ y.Contains y.midpoint := by
  constructor
  · rintro ⟨t, u, ht, hu, htest⟩
    by_contra hout
    have hpoints : (.point 1 : Interval Float) ≠ .point 0 := by decide +kernel
    have hinside := htest ⟨fun t u ↦ x.Contains t ∧ y.Contains u⟩
    rw [onRectangle, if_neg (by simpa using hout), if_pos (by simpa using ⟨ht, hu⟩)] at hinside
    exact hpoints hinside
  · rintro ⟨hx, hy⟩
    exact ⟨_, _, hx, hy, fun p ↦ rfl⟩

end Predicate

theorem View.Spanned.samplesInside_iff {v : View Float} {column row : Nat} (h : v.Spanned)
    (hcolumn : column < v.size.columns) (hrow : row < v.size.rows) : ∃ x y,
    v.pixelRect column row = .ok (x, y) ∧
      (x.IsBounded → y.IsBounded →
        (Predicate.SamplesInside x y ↔
          IsFinite (x.lower + x.upper) ∧ IsFinite (y.lower + y.upper))) := by
  have hcounts := h.counts
  refine ⟨_, _, h.pixelRect_eq hcolumn hrow, fun hx hy ↦ ?_⟩
  rw [Predicate.samplesInside_iff,
    Interval.contains_midpoint_iff (.inl (h.columnInterval_le (by omega))) hx,
    Interval.contains_midpoint_iff (.inl (h.rowInterval_le (by omega))) hy]

/-- **Which samples are inside the pixel.** Over every finite region, with every image that has
pixels and in both directions, a predicate is tested at a point of a pixel with finite bounds
exactly if the bounds along both axes have a finite sum. In general, a valid interval with finite
bounds has its midpoint between them exactly if their sum is finite, that is, if the exact sum is
below the bound at which numbers overflow; this is so if zero is between them. -/
theorem samples_inside_iff (order : CornerOrder Float) (horder : order.Ascends)
    (a b : Point Float) (size : ImageSize) (yAxis : YAxis)
    (hregion : (Region.ofCorners order a b).IsFinite) (hsize : ¬size.IsEmpty) :
    (∀ column < size.columns, ∀ row < size.rows, ∃ x y,
      (⟨.ofCorners order a b, size, yAxis⟩ : View Float).pixelRect column row = .ok (x, y) ∧
      (x.IsBounded → y.IsBounded →
        (Predicate.SamplesInside x y ↔
          IsFinite (x.lower + x.upper) ∧ IsFinite (y.lower + y.upper)))) ∧
    ∀ i : Interval Float, i.Valid → i.IsBounded →
      (i.Contains i.midpoint ↔ IsFinite (i.lower + i.upper)) ∧
      (IsFinite (i.lower + i.upper) ↔
        |(units (unpacked i.lower) : ℚ) + units (unpacked i.upper)| < overflowBound) ∧
      (i.Contains 0 → i.Contains i.midpoint) := by
  constructor
  · intro column hcolumn row hrow
    exact (View.Spanned.ofCorners horder yAxis hregion hsize).samplesInside_iff hcolumn hrow
  · intro i hvalid hbounded
    have hiff := Interval.contains_midpoint_iff hvalid hbounded
    exact ⟨hiff, isFinite_add_iff hbounded.1 hbounded.2, fun hzero ↦
      hiff.mpr (Interval.isFinite_add_of_contains_zero hbounded hzero)⟩

/-- The default region is far from any overflow. -/
theorem defaultView_samplesInside :
    (∃ x y, (⟨.default .comparing, ⟨512, 512⟩, .down⟩ : View Float).pixelRect 3 4 = .ok (x, y) ∧
        Predicate.SamplesInside x y) ∧
      (⟨-1.0, 3.0⟩ : Interval Float).Contains (⟨-1.0, 3.0⟩ : Interval Float).midpoint := by
  obtain ⟨hpixels, hintervals⟩ := samples_inside_iff .comparing CornerOrder.comparing_ascends
    ⟨-10.0, -10.0⟩ ⟨10.0, 10.0⟩ ⟨512, 512⟩ .down (by decide +kernel) (by decide)
  obtain ⟨x, y, hrect, hiff⟩ := hpixels 3 (by decide) 4 (by decide)
  have hspanned : (⟨.default .comparing, ⟨512, 512⟩, .down⟩ : View Float).Spanned :=
    .ofCorners CornerOrder.comparing_ascends _ (by decide +kernel) (by decide)
  obtain ⟨rfl, rfl⟩ := hspanned.rect_eq (by decide) (by decide) hrect
  exact ⟨⟨_, _, hrect, (hiff (by decide +kernel) (by decide +kernel)).mpr (by decide +kernel)⟩,
    (hintervals _ (by decide +kernel) (by decide +kernel)).1.mpr (by decide +kernel)⟩

/-- A single pixel over a finite region far from zero. -/
def View.farPixel : View Float := ⟨.ofCorners .comparing ⟨1e308, 0⟩ ⟨1.5e308, 1⟩, ⟨1, 1⟩, .up⟩

/-- The bounds of the pixel are finite, and a test that holds on the whole of it is made at
infinity, so that the pixel is drawn as an empty one. -/
theorem View.farPixel_samplesOutside :
    farPixel.region.IsFinite ∧ ¬farPixel.size.IsEmpty ∧ ∃ x y,
      farPixel.pixelRect 0 0 = .ok (x, y) ∧ x.Valid ∧ x.IsBounded ∧ y.IsBounded ∧
      ¬x.Contains x.midpoint ∧ ¬Predicate.SamplesInside x y ∧
      (∀ t, x.Contains t → t ≤ 1.6e308) ∧
      render .ample (⟨fun t _ ↦ t ≤ 1.6e308⟩ : Predicate Float) ⟨farPixel, .one⟩
        = .ok ⟨1, 1, #[.empty], rfl⟩ := by
  have hspanned : farPixel.Spanned :=
    .ofCorners CornerOrder.comparing_ascends _ (by decide +kernel) (by decide)
  have hmidpoint : ¬(farPixel.columnInterval 0).Contains (farPixel.columnInterval 0).midpoint := by
    decide +kernel
  have hupper : (farPixel.columnInterval 0).upper ≤ 1.6e308 := by decide +kernel
  exact ⟨hspanned.finite, hspanned.nonempty, _, _, hspanned.pixelRect_eq (by decide) (by decide),
    by decide +kernel, by decide +kernel, by decide +kernel, hmidpoint,
    fun h ↦ hmidpoint (Predicate.samplesInside_iff.mp h).1,
    fun _ ht ↦ le_trans ht.2 hupper, by decide +kernel⟩

end ImplicitPlot
