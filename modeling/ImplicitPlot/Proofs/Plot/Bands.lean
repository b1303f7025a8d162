import Mathlib.Data.List.Intervals
import ImplicitPlot.Plot.Render

/-!
# Bands tile an image

The bands of an image follow one another from its first row to its last one (`Band.Tile`), since the
boundary after one band is computed as the boundary before the next. So their pixels, band by band,
are the pixels of the image in their order, and slices of the image can be cut off, one for each
band, until nothing is left.

A boundary is a product of two words, divided. If the greatest product does not fit a word, there
are no bands at all; the rows of an image are too few for that.
-/

namespace ImplicitPlot.Band

/-- The first row of a band, or the row after the last band. -/
def boundary (height count i : Nat) : Nat := i * height / count

/-- The bands follow one another from one row up to another. -/
inductive Tile : Nat → List Band → Nat → Prop
  | nil (row : Nat) : Tile row [] row
  | cons {start stop last : Nat} {bands : List Band} (hle : start ≤ stop)
      (h : Tile stop bands last) : Tile start (⟨start, stop⟩ :: bands) last

theorem Tile.start_le {start last : Nat} {bands : List Band} (h : Tile start bands last) :
    start ≤ last := by
  induction h with
  | nil => exact Nat.le_refl _
  | cons hle _ ih => exact Nat.le_trans hle ih

/-! ## Bands in words -/

/-- The band between two boundaries. -/
def between (height count i : Nat) : Band :=
  ⟨boundary height count i, boundary height count (i + 1)⟩

@[simp] theorem boundary_zero (height count : Nat) : boundary height count 0 = 0 := by
  rw [boundary, Nat.zero_mul, Nat.zero_div]

theorem boundary_self (height : Nat) {count : Nat} (h : 0 < count) :
    boundary height count count = height :=
  Nat.mul_div_cancel_left _ h

private theorem nth?_eq {height count i : Nat} (h : (i + 1) * height < Word.count) :
    nth? height count i = some (between height count i) := by
  have hle : i * height ≤ (i + 1) * height := Nat.mul_le_mul_right _ (Nat.le_succ i)
  rw [nth?, Word.product?_eq_some_iff.mpr ⟨Nat.lt_of_le_of_lt hle h, rfl⟩,
    Word.product?_eq_some_iff.mpr ⟨h, rfl⟩]
  rfl

private theorem nth?_eq_none {height count i : Nat} (h : Word.count ≤ (i + 1) * height) :
    nth? height count i = none := by
  rw [nth?, Word.product?_eq_none_iff.mpr h]
  cases Word.product? i height <;> rfl

/-- By induction on the number of bands that are left. -/
theorem listFrom?_eq {height count n i : Nat} (h : (i + n) * height < Word.count) :
    listFrom? height count n i = some ((List.range' i n).map (between height count)) := by
  induction n generalizing i with
  | zero => rfl
  | succ n ih =>
    have hi : (i + 1) * height < Word.count :=
      Nat.lt_of_le_of_lt (Nat.mul_le_mul_right _ (by omega)) h
    rw [Nat.add_comm n 1, ← Nat.add_assoc] at h
    rw [listFrom?, nth?_eq hi, ih h, List.range'_succ]
    rfl

private theorem listFrom?_eq_none {height count n i : Nat} (hn : 0 < n)
    (h : Word.count ≤ (i + n) * height) : listFrom? height count n i = none := by
  induction n generalizing i with
  | zero => exact absurd hn (Nat.lt_irrefl 0)
  | succ n ih =>
    rw [listFrom?]
    rcases Nat.eq_zero_or_pos n with rfl | hn
    · rw [nth?_eq_none h]
      rfl
    · rw [Nat.add_comm n 1, ← Nat.add_assoc] at h
      rw [ih hn h]
      cases nth? height count i <;> rfl

theorem clampCount_pos (height count : Nat) : 0 < clampCount height count := Nat.le_max_left 1 _

theorem clampCount_le {height : Nat} (h : 0 < height) (count : Nat) :
    clampCount height count ≤ height := by
  rw [clampCount]
  omega

theorem list?_eq {height count : Nat} (h : clampCount height count * height < Word.count) :
    list? height count = some ((List.range (clampCount height count)).map
      (between height (clampCount height count))) := by
  rw [← Nat.zero_add (clampCount height count)] at h
  rw [list?, List.range_eq_range']
  exact listFrom?_eq h

theorem list?_eq_none {height count : Nat} (h : Word.count ≤ clampCount height count * height) :
    list? height count = none := by
  rw [← Nat.zero_add (clampCount height count)] at h
  exact listFrom?_eq_none (clampCount_pos height count) h

/-! ## Tiling -/

private theorem boundary_le_succ (height count i : Nat) :
    boundary height count i ≤ boundary height count (i + 1) :=
  Nat.div_le_div_right (Nat.mul_le_mul_right _ (Nat.le_succ i))

private theorem tile_between (height count n i : Nat) :
    Tile (boundary height count i) ((List.range' i n).map (between height count))
      (boundary height count (i + n)) := by
  induction n generalizing i with
  | zero => exact .nil _
  | succ n ih =>
    rw [Nat.add_comm n 1, ← Nat.add_assoc, Nat.add_comm 1 n, List.range'_succ, List.map_cons]
    exact .cons (boundary_le_succ height count i) (ih (i + 1))

/-- **Bands tile an image** if the rows, taken once for each band, can be counted in a word. -/
theorem exists_list? {height count : Nat} (h : clampCount height count * height < Word.count) :
    ∃ bands, list? height count = some bands ∧ Tile 0 bands height := by
  have hpos := clampCount_pos height count
  have htile := tile_between height (clampCount height count) (clampCount height count) 0
  rw [Nat.zero_add, boundary_zero, boundary_self height hpos, ← List.range_eq_range'] at htile
  exact ⟨_, list?_eq h, htile⟩

/-- There are no more bands than rows, so the rows of an image are few enough. -/
theorem clampCount_mul_lt {rows : Nat} (h : rows < UInt32.size) (count : Nat) :
    clampCount rows count * rows < Word.count := by
  have hclamp : clampCount rows count ≤ UInt32.size := by
    rw [clampCount]
    omega
  calc clampCount rows count * rows
      ≤ UInt32.size * rows := Nat.mul_le_mul_right _ hclamp
    _ < UInt32.size * UInt32.size := Nat.mul_lt_mul_of_pos_left h (by decide)

/-! ## Rows of a band -/

/-- The number of rows of a band. -/
def rowCount (band : Band) : Nat := band.stop - band.start

theorem rowCount_between (height : Nat) {count : Nat} (h : 0 < count) (i : Nat) :
    height / count ≤ (between height count i).rowCount ∧
      (between height count i).rowCount ≤ height / count + 1 := by
  have hsum : boundary height count (i + 1)
      = boundary height count i + height / count
        + if count ≤ i * height % count + height % count then 1 else 0 := by
    rw [boundary, Nat.succ_mul, Nat.add_div h]
    rfl
  rw [rowCount, between, hsum, Nat.add_assoc, Nat.add_sub_cancel_left]
  constructor
  · exact Nat.le_add_right _ _
  · split
    · exact Nat.le_refl _
    · exact Nat.le_add_right _ _

/-- **The bands of an image.** In words, there are bands exactly if the rows, taken once for each
band, can be counted: as many as asked for, but at least one and no more than there are rows. They
tile the image, their row counts differ by one row at most, and each has a row unless the image has
none. The rows of an image to be drawn can always be counted. -/
theorem bands_of_image (height count : Nat) :
    let bandCount := max 1 (min count (max height 1))
    (bandCount * height < UInt64.size → ∃ bands, list? height count = some bands ∧
      bands.length = bandCount ∧ Tile 0 bands height ∧
      (∀ a ∈ bands, ∀ b ∈ bands, a.rowCount ≤ b.rowCount + 1) ∧
      (0 < height → ∀ band ∈ bands, band.start < band.stop)) ∧
    (UInt64.size ≤ bandCount * height → list? height count = none) ∧
    (height < UInt32.size → ∃ bands, list? height count = some bands) ∧
    ∀ (α : Type) [Scalar α] (s : RenderSettings α), s.bands ≠ .error .tooManyRows := by
  have hpos := clampCount_pos height count
  refine ⟨fun h ↦ ?_, list?_eq_none, fun h ↦ ⟨_, list?_eq (clampCount_mul_lt h count)⟩, ?_⟩
  · obtain ⟨bands, hbands, htile⟩ := exists_list? h
    cases (list?_eq h).symm.trans hbands
    refine ⟨_, hbands, ?_, htile, ?_, ?_⟩
    · rw [List.length_map, List.length_range]
      rfl
    · intro a ha b hb
      obtain ⟨i, -, rfl⟩ := List.mem_map.mp ha
      obtain ⟨j, -, rfl⟩ := List.mem_map.mp hb
      exact Nat.le_trans (rowCount_between height hpos i).2
        (Nat.succ_le_succ (rowCount_between height hpos j).1)
    · intro hheight band hband
      obtain ⟨i, -, rfl⟩ := List.mem_map.mp hband
      have hrow : 0 < height / clampCount height count :=
        Nat.div_pos (clampCount_le hheight count) hpos
      exact Nat.lt_of_sub_pos (Nat.lt_of_lt_of_le hrow (rowCount_between height hpos i).1)
  · intro α _ s hs
    obtain ⟨bands, hbands, -⟩ :=
      exists_list? (clampCount_mul_lt s.view.size.height.toNat_lt_size s.workers.count)
    rw [RenderSettings.bands, ImageSize.rows, hbands] at hs
    split at hs
    · cases hs
    · split at hs <;> cases hs

example : list? 10 3 = some [⟨0, 3⟩, ⟨3, 6⟩, ⟨6, 10⟩] := by decide

/-! ## Slices -/

/-- The places of the pixels of a band, in the row-by-row order of an image. -/
def places (columns : Nat) (band : Band) : List Nat :=
  List.Ico (band.start * columns) (band.stop * columns)

/-- Cuts a slice for each band off a row-by-row image. A slice that is longer than what is left of
the image cannot be cut off. -/
def cut? {β : Type} (columns : Nat) : List Band → List β → Option (List (List β))
  | [], _ => some []
  | band :: bands, pixels =>
    let size := (band.stop - band.start) * columns
    if size ≤ pixels.length then
      (cut? columns bands (pixels.drop size)).map (pixels.take size :: ·)
    else none

/-- **Cutting stays in bounds**, and the slice for a band has the places of the band. -/
theorem Tile.cut?_eq {start last : Nat} {bands : List Band} (h : Tile start bands last)
    (columns : Nat) :
    cut? columns bands (List.Ico (start * columns) (last * columns))
      = some (bands.map (places columns)) := by
  induction h with
  | nil => rfl
  | @cons start stop last bands hle h ih =>
    have hfirst : start * columns ≤ stop * columns := Nat.mul_le_mul_right _ hle
    have hrest : stop * columns ≤ last * columns := Nat.mul_le_mul_right _ h.start_le
    have hsize : (List.Ico (start * columns) (stop * columns)).length
        = (stop - start) * columns := by
      rw [List.Ico.length, Nat.sub_mul]
    rw [← List.Ico.append_consecutive hfirst hrest, cut?, List.length_append, hsize]
    rw [if_pos (Nat.le_add_right _ _), List.drop_left' hsize, List.take_left' hsize, ih]
    rfl

theorem Tile.flatMap_places {columns start last : Nat} {bands : List Band}
    (h : Tile start bands last) :
    bands.flatMap (places columns) = List.Ico (start * columns) (last * columns) := by
  induction h with
  | nil row => exact (List.Ico.self_empty).symm
  | @cons start stop last bands hle h ih =>
    have hfirst : start * columns ≤ stop * columns := Nat.mul_le_mul_right _ hle
    have hrest : stop * columns ≤ last * columns := Nat.mul_le_mul_right _ h.start_le
    rw [List.flatMap_cons, ih, places, List.Ico.append_consecutive hfirst hrest]

end ImplicitPlot.Band
