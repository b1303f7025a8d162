import ImplicitPlot.Proofs.Plot.CornerOrder
import ImplicitPlot.Proofs.Plot.FirstFault
import ImplicitPlot.Proofs.Scalar.Counts

/-!
# Pixels share their edges

The bounds of a pixel are computed anew for each pixel, with rounding. Still the pixels of an image
lie edge to edge (`View.EdgeToEdge`): the upper bound of a column is computed from the number of the
column plus one, which is exactly the number of the next column, so the bounds of neighbours are the
same number (`View.columnEdge`, `View.rowEdge`). The edges are in order because rounding keeps the
order, also where the product of a count and a step is too large for a number.
-/

namespace ImplicitPlot

open Scalar (Agree IsFinite IsNaN Lawful)

/-! ## Edges along an axis -/

namespace Binary64

variable {a b base step : Float} {n : ℕ}

theorem sub_nonneg (hab : a ≤ b) (ha : IsFinite a) (hb : IsFinite b) : 0 ≤ b - a := by
  have hna := Lawful.not_isNaN_of_isFinite ha
  have hle := sub_le_sub hab (Scalar.le_refl_of_isFinite ha) (not_isNaN_sub ha hna)
    (not_isNaN_sub hb hna)
  exact le_trans (Lawful.sub_self ha).2 hle

theorem div_count (ha : 0 ≤ a) (hfinite : IsFinite a) (hpos : 0 < n) (hn : n < 2 ^ 53) :
    0 ≤ a / Float.ofNat n ∧ IsFinite (a / Float.ofNat n) := by
  have hcount := isCount_ofNat hn
  obtain ⟨hnonneg, hle⟩ :=
    div_le_of_one_le ha ((IsCount.one.le_iff hcount).mpr hpos) hfinite hcount.finite
  exact ⟨hnonneg, isFinite_of_le_of_le hnonneg hle isFinite_zero hfinite⟩

/-- More steps lead farther, unless both are too many for a number. -/
theorem steps_le (hstep : 0 ≤ step) (hfinite : IsFinite step) (hn : n + 1 < 2 ^ 53) :
    Float.ofNat n * step ≤ Float.ofNat (n + 1) * step := by
  have hcount := isCount_ofNat (Nat.lt_of_succ_lt hn)
  have hcount' := isCount_ofNat hn
  exact (mul_le_mul_of_nonneg hcount.nonneg ((hcount.le_iff hcount').mpr n.le_succ) hstep
    hcount'.finite hfinite).2

theorem add_steps_le (hbase : IsFinite base) (hstep : 0 ≤ step) (hfinite : IsFinite step)
    (hn : n + 1 < 2 ^ 53) :
    base + Float.ofNat n * step ≤ base + Float.ofNat (n + 1) * step := by
  have hle := steps_le hstep hfinite hn
  obtain ⟨hnumber, hnumber'⟩ := Lawful.not_isNaN_of_le hle
  exact add_le_add (Scalar.le_refl_of_isFinite hbase) hle (not_isNaN_add hbase hnumber)
    (not_isNaN_add hbase hnumber')

theorem sub_steps_le (hbase : IsFinite base) (hstep : 0 ≤ step) (hfinite : IsFinite step)
    (hn : n + 1 < 2 ^ 53) :
    base - Float.ofNat (n + 1) * step ≤ base - Float.ofNat n * step := by
  have hle := steps_le hstep hfinite hn
  obtain ⟨hnumber, hnumber'⟩ := Lawful.not_isNaN_of_le hle
  exact sub_le_sub (Scalar.le_refl_of_isFinite hbase) hle (not_isNaN_sub hbase hnumber')
    (not_isNaN_sub hbase hnumber)

theorem no_steps_agree (hfinite : IsFinite step) : Agree (Float.ofNat 0 * step) 0 := by
  have hzero : Agree (Float.ofNat 0) 0 := Scalar.agree_self Scalar.not_isNaN_zero
  exact zero_mul_agree hzero (not_isNaN_mul isFinite_zero hfinite)

theorem add_no_steps (hbase : IsFinite base) (hfinite : IsFinite step) :
    Agree (base + Float.ofNat 0 * step) base := by
  rw [add_comm]
  exact zero_add_agree (no_steps_agree hfinite) (Lawful.not_isNaN_of_isFinite hbase)

theorem sub_no_steps (hbase : IsFinite base) (hfinite : IsFinite step) :
    Agree (base - Float.ofNat 0 * step) base := by
  rw [sub_eq_add_neg, add_comm]
  exact zero_add_agree ((no_steps_agree hfinite).neg.trans Lawful.neg_zero)
    (Lawful.not_isNaN_of_isFinite hbase)

end Binary64

/-- What lies between the first and the last of some edges lies between neighbouring ones. By
induction on the number of edges. -/
theorem exists_adjacent {α : Type} {R : α → α → Prop} {edge : ℕ → α} {t : α} {n : ℕ} (hn : 0 < n)
    (htotal : ∀ i < n, R (edge i) t ∨ R t (edge i)) (hfirst : R (edge 0) t) (hlast : R t (edge n)) :
    ∃ i < n, R (edge i) t ∧ R t (edge (i + 1)) := by
  induction n with
  | zero => exact absurd hn (Nat.lt_irrefl 0)
  | succ n ih =>
    rcases htotal n n.lt_succ_self with h | h
    · exact ⟨n, n.lt_succ_self, h, hlast⟩
    · rcases Nat.eq_zero_or_pos n with rfl | hpos
      · exact ⟨0, Nat.zero_lt_one, hfirst, hlast⟩
      · obtain ⟨i, hi, hbetween⟩ := ih hpos (fun i hi ↦ htotal i (Nat.lt_succ_of_lt hi)) h
        exact ⟨i, Nat.lt_succ_of_lt hi, hbetween⟩

namespace View

section Edges

variable {φ α κ : Type} [Plottable φ α κ] [Scalar α]

/-- The edge before a column, counted from the left. -/
def columnEdge (v : View α) (i : Nat) : α := v.region.min.x + (i : α) * v.pixelSize.x

/-- The edge before a row, counted from the first row. -/
def rowEdge (v : View α) (i : Nat) : α :=
  match v.yAxis with
  | .up => v.region.max.y - (i : α) * v.pixelSize.y
  | .down => v.region.min.y + (i : α) * v.pixelSize.y

/-- The range between the edges of a column. -/
def columnInterval (v : View α) (i : Nat) : Interval α := ⟨v.columnEdge i, v.columnEdge (i + 1)⟩

/-- The range between the edges of a row. -/
def rowInterval (v : View α) (i : Nat) : Interval α :=
  match v.yAxis with
  | .up => ⟨v.rowEdge (i + 1), v.rowEdge i⟩
  | .down => ⟨v.rowEdge i, v.rowEdge (i + 1)⟩

theorem canvas_turn {v : View α} (f : φ) (canvas : Canvas α) {w : Worker κ} {column row : Nat}
    {x y : Interval α} (hcolumn : column < v.size.columns)
    (hnext : w.next = row * v.size.columns + column) (hlt : w.next < w.stop)
    (h : v.pixelRect column row = .ok (x, y)) :
    (w.turn f v canvas).2 =
      match Plottable.onRectangle f x y w.context with
      | .ok a _ => canvas.paint w.next (.classify a)
      | .error fault _ => canvas.report ⟨fault, ⟨x.lower, y.lower⟩⟩ := by
  have hevaluate : v.evaluate f column row w.context = Plottable.onRectangle f x y w.context := by
    rw [evaluate, h]
  have hcases := Worker.turn_cases f v w canvas
  rw [hnext, place_mod hcolumn, place_div hcolumn, ← hnext, hevaluate] at hcases
  rcases hcases with ⟨hle, -⟩ | ⟨a, c, -, ha, hturn⟩ | ⟨fault, c, -, hfault, hturn⟩
  · exact absurd hlt (Nat.not_lt.mpr hle)
  · rw [hturn, ha]
  · rw [hturn, hfault, pixelCorner_eq h]

end Edges

/-! ## Bounds are edges -/

section Bounds

open Binary64

variable {v : View Float} {column row : Nat}

theorem columnBounds_eq (h : column + 1 < 2 ^ 53) :
    v.columnBounds column = (v.columnEdge column, v.columnEdge (column + 1)) := by
  change (_, v.region.min.x + (Float.ofNat column + 1) * v.pixelSize.x) = _
  rw [ofNat_add_one h]
  rfl

theorem rowBounds_eq (h : row + 1 < 2 ^ 53) :
    v.rowBounds row = ((v.rowInterval row).lower, (v.rowInterval row).upper) := by
  rw [rowBounds, rowInterval]
  cases hy : v.yAxis with
  | up =>
    change (v.region.max.y - (Float.ofNat row + 1) * v.pixelSize.y, _) = _
    rw [ofNat_add_one h, rowEdge, rowEdge, hy]
    rfl
  | down =>
    change (_, v.region.min.y + (Float.ofNat row + 1) * v.pixelSize.y) = _
    rw [ofNat_add_one h, rowEdge, rowEdge, hy]
    rfl

end Bounds

/-! ## Order of the edges -/

/-- The corners of the region are in order, and there are pixels to divide it among. -/
structure Spanned (v : View Float) : Prop where
  finite : v.region.IsFinite
  ordered : v.region.min.x ≤ v.region.max.x ∧ v.region.min.y ≤ v.region.max.y
  nonempty : ¬v.size.IsEmpty

namespace Spanned

open Binary64

variable {v : View Float} {column row i : Nat}

theorem ofCorners {order : CornerOrder Float} (horder : order.Ascends) {a b : Point Float}
    {size : ImageSize} (yAxis : YAxis) (h : (Region.ofCorners order a b).IsFinite)
    (hsize : ¬size.IsEmpty) : Spanned ⟨.ofCorners order a b, size, yAxis⟩ where
  finite := h
  ordered := ⟨horder _ _ (Lawful.not_isNaN_of_isFinite h.1.1),
    horder _ _ (Lawful.not_isNaN_of_isFinite h.1.2)⟩
  nonempty := hsize

/-- There are fewer columns and rows than a number has room for. -/
theorem counts (h : v.Spanned) :
    (0 < v.size.columns ∧ v.size.columns < 2 ^ 32) ∧ 0 < v.size.rows ∧ v.size.rows < 2 ^ 32 := by
  obtain ⟨hcolumns, hrows⟩ := not_or.mp h.nonempty
  exact ⟨⟨Nat.pos_of_ne_zero hcolumns, v.size.width.toNat_lt⟩,
    Nat.pos_of_ne_zero hrows, v.size.height.toNat_lt⟩

theorem pixelSize (h : v.Spanned) :
    (0 ≤ v.pixelSize.x ∧ IsFinite v.pixelSize.x) ∧ 0 ≤ v.pixelSize.y ∧ IsFinite v.pixelSize.y := by
  obtain ⟨⟨hminx, hminy⟩, ⟨hmaxx, hmaxy⟩, hwidth, hheight⟩ := h.finite
  obtain ⟨⟨hcolumns, hcolumns'⟩, hrows, hrows'⟩ := h.counts
  exact ⟨div_count (sub_nonneg h.ordered.1 hminx hmaxx) hwidth hcolumns (by omega),
    div_count (sub_nonneg h.ordered.2 hminy hmaxy) hheight hrows (by omega)⟩

theorem columnInterval_le (h : v.Spanned) (hi : i + 1 < 2 ^ 53) :
    (v.columnInterval i).lower ≤ (v.columnInterval i).upper :=
  add_steps_le h.finite.1.1 h.pixelSize.1.1 h.pixelSize.1.2 hi

theorem rowInterval_le (h : v.Spanned) (hi : i + 1 < 2 ^ 53) :
    (v.rowInterval i).lower ≤ (v.rowInterval i).upper := by
  obtain ⟨-, hstep, hfinite⟩ := h.pixelSize
  rw [rowInterval]
  cases hy : v.yAxis with
  | up =>
    rw [rowEdge, rowEdge, hy]
    exact sub_steps_le h.finite.2.1.2 hstep hfinite hi
  | down =>
    rw [rowEdge, rowEdge, hy]
    exact add_steps_le h.finite.1.2 hstep hfinite hi

/-- **The rectangle of a pixel** is the one between its edges, which are in order. -/
theorem pixelRect_eq (h : v.Spanned) (hcolumn : column < v.size.columns)
    (hrow : row < v.size.rows) :
    v.pixelRect column row = .ok (v.columnInterval column, v.rowInterval row) := by
  have hcounts := h.counts
  have hcolumn' : column + 1 < 2 ^ 53 := by omega
  have hrow' : row + 1 < 2 ^ 53 := by omega
  rw [pixelRect, columnBounds_eq hcolumn', rowBounds_eq hrow']
  exact bind_eq_ok (if_pos (.inl (h.columnInterval_le hcolumn')))
    (bind_eq_ok (if_pos (.inl (h.rowInterval_le hrow'))) rfl)

theorem rect_eq (h : v.Spanned) (hcolumn : column < v.size.columns) (hrow : row < v.size.rows)
    {x y : Interval Float} (hrect : v.pixelRect column row = .ok (x, y)) :
    x = v.columnInterval column ∧ y = v.rowInterval row :=
  Prod.mk.inj (Except.ok.inj (hrect.symm.trans (h.pixelRect_eq hcolumn hrow)))

/-! ## No gaps -/

theorem exists_column (h : v.Spanned) {t : Float} (hfirst : v.columnEdge 0 ≤ t)
    (hlast : t ≤ v.columnEdge v.size.columns) :
    ∃ column < v.size.columns, (v.columnInterval column).Contains t := by
  have hcounts := h.counts
  refine exists_adjacent (R := (· ≤ ·)) hcounts.1.1 (fun i hi ↦ ?_) hfirst hlast
  have hle := h.columnInterval_le (i := i) (by omega)
  exact Lawful.le_total (Lawful.not_isNaN_of_le hle).1 (Lawful.not_isNaN_of_le hlast).1

theorem exists_row (h : v.Spanned) {t : Float}
    (hbetween : match v.yAxis with
      | .up => v.rowEdge v.size.rows ≤ t ∧ t ≤ v.rowEdge 0
      | .down => v.rowEdge 0 ≤ t ∧ t ≤ v.rowEdge v.size.rows) :
    ∃ row < v.size.rows, (v.rowInterval row).Contains t := by
  have hcounts := h.counts
  have hnumbers {i : Nat} (hi : i < v.size.rows) :=
    Lawful.not_isNaN_of_le (h.rowInterval_le (i := i) (by omega))
  unfold rowInterval at hnumbers ⊢
  cases hy : v.yAxis with
  | up =>
    simp only [hy] at hbetween hnumbers
    obtain ⟨hlast, hfirst⟩ := hbetween
    obtain ⟨i, hi, hupper, hlower⟩ := exists_adjacent (R := (· ≥ ·)) hcounts.2.1
      (fun i hi ↦ Lawful.le_total (Lawful.not_isNaN_of_le hlast).2 (hnumbers hi).2) hfirst hlast
    exact ⟨i, hi, hlower, hupper⟩
  | down =>
    simp only [hy] at hbetween hnumbers
    obtain ⟨hfirst, hlast⟩ := hbetween
    exact exists_adjacent (R := (· ≤ ·)) hcounts.2.1
      (fun i hi ↦ Lawful.le_total (hnumbers hi).1 (Lawful.not_isNaN_of_le hlast).1) hfirst hlast

end Spanned

/-! ## Edge to edge -/

/-- The pixels of an image lie edge to edge, and cover what is between the outer edges. -/
structure EdgeToEdge {α : Type} [Scalar α] (v : View α) : Prop where
  exists_rect {column row : Nat} (hcolumn : column < v.size.columns) (hrow : row < v.size.rows) :
    ∃ x y, v.pixelRect column row = .ok (x, y)
  /-- A column ends with the number with which the next one starts, in whichever rows. -/
  columns_share {column row row' : Nat} (hcolumn : column + 1 < v.size.columns)
    (hrow : row < v.size.rows) (hrow' : row' < v.size.rows) {x y x' y' : Interval α}
    (h : v.pixelRect column row = .ok (x, y))
    (h' : v.pixelRect (column + 1) row' = .ok (x', y')) : x.upper = x'.lower
  /-- A row ends with the number with which the next one starts, in whichever columns. -/
  rows_share {column column' row : Nat} (hcolumn : column < v.size.columns)
    (hcolumn' : column' < v.size.columns) (hrow : row + 1 < v.size.rows) {x y x' y' : Interval α}
    (h : v.pixelRect column row = .ok (x, y))
    (h' : v.pixelRect column' (row + 1) = .ok (x', y')) :
    match v.yAxis with
    | .up => y.lower = y'.upper
    | .down => y.upper = y'.lower
  first_column {row : Nat} (hrow : row < v.size.rows) {x y : Interval α}
    (h : v.pixelRect 0 row = .ok (x, y)) : Agree x.lower v.region.min.x
  first_row {column : Nat} (hcolumn : column < v.size.columns) {x y : Interval α}
    (h : v.pixelRect column 0 = .ok (x, y)) :
    match v.yAxis with
    | .up => Agree y.upper v.region.max.y
    | .down => Agree y.lower v.region.min.y
  /-- A point between the bounds of the first and of the last pixel is in a pixel. -/
  covers {x₀ y₀ x₁ y₁ : Interval α} (h₀ : v.pixelRect 0 0 = .ok (x₀, y₀))
    (h₁ : v.pixelRect (v.size.columns - 1) (v.size.rows - 1) = .ok (x₁, y₁)) {p : Point α}
    (hx : x₀.lower ≤ p.x ∧ p.x ≤ x₁.upper)
    (hy : match v.yAxis with
      | .up => y₁.lower ≤ p.y ∧ p.y ≤ y₀.upper
      | .down => y₀.lower ≤ p.y ∧ p.y ≤ y₁.upper) :
    ∃ column < v.size.columns, ∃ row < v.size.rows, ∃ x y,
      v.pixelRect column row = .ok (x, y) ∧ x.Contains p.x ∧ y.Contains p.y
  /-- What a worker draws on a pixel comes from the rectangle of the pixel, whatever the band. -/
  drawn {φ κ : Type} [Plottable φ α κ] (f : φ) (canvas : Canvas α) {w : Worker κ}
    {column row : Nat} (hcolumn : column < v.size.columns)
    (hnext : w.next = row * v.size.columns + column) (hlt : w.next < w.stop)
    {x y : Interval α} (h : v.pixelRect column row = .ok (x, y)) :
    (w.turn f v canvas).2 =
      match Plottable.onRectangle f x y w.context with
      | .ok a _ => canvas.paint w.next (.classify a)
      | .error fault _ => canvas.report ⟨fault, ⟨x.lower, y.lower⟩⟩

theorem Spanned.edgeToEdge {v : View Float} (h : v.Spanned) : v.EdgeToEdge where
  exists_rect hcolumn hrow := ⟨_, _, h.pixelRect_eq hcolumn hrow⟩
  columns_share hcolumn hrow hrow' _ _ _ _ hrect hrect' := by
    obtain ⟨rfl, -⟩ := h.rect_eq (Nat.lt_of_succ_lt hcolumn) hrow hrect
    obtain ⟨rfl, -⟩ := h.rect_eq hcolumn hrow' hrect'
    rfl
  rows_share hcolumn hcolumn' hrow _ _ _ _ hrect hrect' := by
    obtain ⟨-, rfl⟩ := h.rect_eq hcolumn (Nat.lt_of_succ_lt hrow) hrect
    obtain ⟨-, rfl⟩ := h.rect_eq hcolumn' hrow hrect'
    rw [rowInterval, rowInterval]
    cases v.yAxis <;> rfl
  first_column hrow _ _ hrect := by
    obtain ⟨rfl, -⟩ := h.rect_eq h.counts.1.1 hrow hrect
    exact Binary64.add_no_steps h.finite.1.1 h.pixelSize.1.2
  first_row hcolumn _ _ hrect := by
    obtain ⟨-, rfl⟩ := h.rect_eq hcolumn h.counts.2.1 hrect
    obtain ⟨-, -, hstep⟩ := h.pixelSize
    rw [rowInterval, rowEdge, rowEdge]
    cases v.yAxis with
    | up => exact Binary64.sub_no_steps h.finite.2.1.2 hstep
    | down => exact Binary64.add_no_steps h.finite.1.2 hstep
  covers h₀ h₁ p hx hy := by
    obtain ⟨⟨hcolumns, -⟩, hrows, -⟩ := h.counts
    obtain ⟨rfl, rfl⟩ := h.rect_eq hcolumns hrows h₀
    obtain ⟨rfl, rfl⟩ := h.rect_eq (Nat.sub_one_lt_of_lt hcolumns) (Nat.sub_one_lt_of_lt hrows) h₁
    rw [columnInterval, columnInterval, Nat.sub_add_cancel hcolumns] at hx
    obtain ⟨column, hcolumn, hx⟩ := h.exists_column hx.1 hx.2
    rw [rowInterval, rowInterval, Nat.sub_add_cancel hrows] at hy
    have hbetween : match v.yAxis with
        | .up => v.rowEdge v.size.rows ≤ p.y ∧ p.y ≤ v.rowEdge 0
        | .down => v.rowEdge 0 ≤ p.y ∧ p.y ≤ v.rowEdge v.size.rows := by
      cases hdirection : v.yAxis <;> simpa only [hdirection] using hy
    obtain ⟨row, hrow, hy⟩ := h.exists_row hbetween
    exact ⟨column, hcolumn, row, hrow, _, _, h.pixelRect_eq hcolumn hrow, hx, hy⟩
  drawn f canvas _ _ _ hcolumn hnext hlt _ _ hrect := canvas_turn f canvas hcolumn hnext hlt hrect

/-- **Neighbouring pixels share their edge.** Over every finite region, with every image that has
pixels and in both directions, the pixels lie edge to edge, and no coordinate between the first and
the last bound falls between two pixels. -/
theorem edgeToEdge_of_isFinite (order : CornerOrder Float) (horder : order.Ascends)
    (a b : Point Float) (size : ImageSize) (yAxis : YAxis)
    (hregion : (Region.ofCorners order a b).IsFinite) (hsize : ¬size.IsEmpty) :
    EdgeToEdge ⟨.ofCorners order a b, size, yAxis⟩ :=
  (Spanned.ofCorners horder yAxis hregion hsize).edgeToEdge

/-- Three columns over the widest region that starts at zero. A third of its width is rounded up, so
that three steps are too many for a number. -/
def widestThirds : View Float :=
  ⟨.ofCorners .comparing ⟨0, 1⟩ ⟨1.7976931348623157e308, 0⟩, ⟨3, 2⟩, .up⟩

theorem widestThirds_edgeToEdge :
    IsFinite (widestThirds.columnInterval 2).lower ∧
      ¬IsFinite (widestThirds.columnInterval 2).upper ∧ widestThirds.EdgeToEdge :=
  ⟨by decide +kernel, by decide +kernel,
    edgeToEdge_of_isFinite .comparing CornerOrder.comparing_ascends _ _ _ _ (by decide +kernel)
      (by decide)⟩

end View

end ImplicitPlot
