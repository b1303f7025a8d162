import ImplicitPlot.Plot.Bitmap
import ImplicitPlot.Proofs.Sequence
import ImplicitPlot.Proofs.Text.Lines

/-!
# The exports of a bitmap

The indices, the colours and the text of an image are written by three different traversals of its
pixels. Each of them keeps the pixel in a column and row at the place that the order row by row
gives it, and no two kinds of pixels look the same in any of them, so that the image can be read
back from each. There is no text, however, if the room for it cannot be asked for. The size of the
text counts an end of line for each row, and is computed in words: it can be too large for an image
that has no pixels at all.
-/

namespace ImplicitPlot

namespace Pixel

theorem index_injective : Function.Injective index := by
  intro p q h
  cases p <;> cases q <;> first | rfl | cases h

theorem rgb_injective : Function.Injective rgb := by
  intro p q h
  cases p <;> cases q <;> first | rfl | cases h

theorem glyph_injective : Function.Injective glyph := by
  intro p q h
  cases p <;> cases q <;> first | rfl | cases h

@[simp] theorem length_rgb (p : Pixel) : p.rgb.length = 3 := by cases p <;> rfl

theorem glyph_ne_lineEnd (p : Pixel) : p.glyph ≠ '\n' ∧ p.glyph ≠ '\r' := by
  cases p <;> decide

end Pixel

namespace Bitmap

/-! ## Chunks -/

section Chunks

variable {β : Type} {n : Nat} {ps : List β}

theorem length_of_mem_chunksExact {chunk : List β} (h : chunk ∈ chunksExact n ps) :
    chunk.length = n := by
  induction ps using chunksExact.induct n with
  | case1 ps hfull ih =>
    rw [chunksExact, if_pos hfull, List.mem_cons] at h
    rcases h with rfl | hrest
    · exact List.length_take_of_le hfull.2
    · exact ih hrest
  | case2 ps hshort =>
    rw [chunksExact, if_neg hshort] at h
    cases h

theorem length_chunksExact (hn : 0 < n) (ps : List β) :
    (chunksExact n ps).length = ps.length / n := by
  induction ps using chunksExact.induct n with
  | case1 ps hfull ih =>
    rw [chunksExact, if_pos hfull, List.length_cons, ih, List.length_drop,
      ← Nat.div_eq_sub_div hn hfull.2]
  | case2 ps hshort =>
    rw [chunksExact, if_neg hshort, List.length_nil, Nat.div_eq_of_lt]
    exact Nat.lt_of_not_le fun hle ↦ hshort ⟨hn, hle⟩

theorem getElem?_chunksExact (hn : 0 < n) {i : Nat} (h : (i + 1) * n ≤ ps.length) :
    (chunksExact n ps)[i]? = some ((ps.drop (i * n)).take n) := by
  induction ps using chunksExact.induct n generalizing i with
  | case1 ps hfull ih =>
    rw [chunksExact, if_pos hfull]
    cases i with
    | zero => simp
    | succ i =>
      rw [List.getElem?_cons_succ, ih, List.drop_drop, Nat.succ_mul, Nat.add_comm n]
      rw [List.length_drop]
      rw [Nat.succ_mul] at h
      omega
  | case2 ps hshort =>
    refine absurd ⟨hn, ?_⟩ hshort
    calc n ≤ (i + 1) * n := Nat.le_mul_of_pos_left n i.succ_pos
      _ ≤ ps.length := h

end Chunks

variable {b b' : Bitmap} {column row : Nat} {p : Pixel}

/-! ## Pixels by column and row -/

theorem place_lt (hcolumn : column < b.width) (hrow : row < b.height) :
    row * b.width + column < b.pixels.toList.length := by
  rw [Array.length_toList, b.size_eq]
  calc row * b.width + column < row * b.width + b.width := Nat.add_lt_add_left hcolumn _
    _ = (row + 1) * b.width := (Nat.succ_mul row b.width).symm
    _ ≤ b.height * b.width := Nat.mul_le_mul_right _ hrow
    _ = b.width * b.height := Nat.mul_comm _ _

theorem get?_eq (hcolumn : column < b.width) (hrow : row < b.height) :
    b.get? column row = b.pixels.toList[row * b.width + column]? := by
  rw [get?, if_pos ⟨hcolumn, hrow⟩, Array.getElem?_toList]

theorem isSome_get? (b : Bitmap) (column row : Nat) :
    (b.get? column row).isSome ↔ column < b.width ∧ row < b.height := by
  constructor
  · intro h
    by_contra hout
    rw [get?, if_neg hout] at h
    cases h
  · rintro ⟨hcolumn, hrow⟩
    rw [get?_eq hcolumn hrow, List.getElem?_eq_getElem (place_lt hcolumn hrow)]
    rfl

/-- Images of one size are equal if they have the same pixel in every column and row. -/
theorem eq_of_get?_eq (hwidth : b'.width = b.width) (hheight : b'.height = b.height)
    (h : ∀ column row, column < b.width → row < b.height → b'.get? column row = b.get? column row) :
    b' = b := by
  have hpixels : b'.pixels.toList = b.pixels.toList := by
    refine List.ext_getElem? fun place ↦ ?_
    have hlength : b.pixels.toList.length = b.width * b.height := b.size_eq
    have hlength' : b'.pixels.toList.length = b.width * b.height := by
      rw [Array.length_toList, b'.size_eq, hwidth, hheight]
    by_cases hplace : place < b.width * b.height
    · -- Division by the width gives back the column and the row of a place.
      have hpos : 0 < b.width := Nat.pos_of_ne_zero fun h0 ↦ by simp [h0] at hplace
      have hcolumn : place % b.width < b.width := Nat.mod_lt _ hpos
      have hrow : place / b.width < b.height := Nat.div_lt_of_lt_mul hplace
      have hpixel := h _ _ hcolumn hrow
      rw [get?_eq (hwidth ▸ hcolumn) (hheight ▸ hrow), get?_eq hcolumn hrow, hwidth,
        Nat.div_add_mod'] at hpixel
      exact hpixel
    · rw [List.getElem?_eq_none (by omega), List.getElem?_eq_none (by omega)]
  obtain ⟨width, height, pixels, hsize⟩ := b
  obtain ⟨width', height', pixels', hsize'⟩ := b'
  obtain rfl := hwidth
  obtain rfl := hheight
  obtain rfl := Array.toList_inj.mp hpixels
  rfl

/-! ## Indices and colours -/

theorem toIndices_eq_iff (hcolumn : column < b.width) (hrow : row < b.height) :
    b.toIndices[row * b.width + column]? = some p.index ↔ b.get? column row = some p := by
  rw [toIndices, List.getElem?_map, get?_eq hcolumn hrow]
  exact Option.map_injective Pixel.index_injective |>.eq_iff' rfl

/-- The colour of a pixel has three parts, so that those of the pixel at a place begin at three
times this place. -/
theorem take_drop_toRgb {place : Nat} (hplace : place < b.pixels.toList.length) :
    (b.toRgb.drop (3 * place)).take 3 = b.pixels.toList[place].rgb := by
  rw [toRgb]
  generalize b.pixels.toList = ps at hplace
  induction ps generalizing place with
  | nil => cases hplace
  | cons q ps ih =>
    rw [List.flatMap_cons]
    -- The first pixel stands at the front; for the others, its three parts are dropped.
    cases place with
    | zero => exact List.take_left' q.length_rgb
    | succ place =>
      rw [Nat.mul_succ, Nat.add_comm, ← List.drop_drop, List.drop_left' q.length_rgb]
      exact ih (Nat.lt_of_succ_lt_succ hplace)

theorem toRgb_eq_iff (hcolumn : column < b.width) (hrow : row < b.height) :
    (b.toRgb.drop (3 * (row * b.width + column))).take 3 = p.rgb ↔ b.get? column row = some p := by
  have hplace := place_lt hcolumn hrow
  rw [take_drop_toRgb hplace, get?_eq hcolumn hrow, List.getElem?_eq_getElem hplace,
    Option.some_inj, Pixel.rgb_injective.eq_iff]

@[simp] theorem length_toRgb (b : Bitmap) : b.toRgb.length = 3 * (b.width * b.height) := by
  rw [toRgb, List.length_flatMap]
  simp [b.size_eq, Nat.mul_comm]

/-! ## Text -/

theorem textSize_eq_ok_iff {size : Nat} :
    b.textSize = .ok size ↔
      b.width + 1 < Word.count ∧ (b.width + 1) * b.height ≤ Word.maxBytes ∧
        size = (b.width + 1) * b.height := by
  rw [textSize]
  cases hline : Word.sum? b.width 1 with
  | none =>
    exact iff_of_false nofun fun h ↦ Nat.not_lt.mpr (Word.sum?_eq_none_iff.mp hline) h.1
  | some line =>
    obtain ⟨hfits, rfl⟩ := Word.sum?_eq_some_iff.mp hline
    cases hsize : Word.product? (b.width + 1) b.height with
    | none =>
      refine iff_of_false (by simp [hsize]) fun h ↦ ?_
      exact Nat.not_lt.mpr (Word.product?_eq_none_iff.mp hsize)
        (Nat.lt_of_le_of_lt h.2.1 Word.maxBytes_lt_count)
    | some size' =>
      obtain ⟨-, rfl⟩ := Word.product?_eq_some_iff.mp hsize
      by_cases hroom : (b.width + 1) * b.height ≤ Word.maxBytes
      · simp [hsize, hfits, hroom, eq_comm]
      · simp [hsize, hroom]

/-- There is a text exactly if the room for it can be asked for. -/
theorem exists_toAscii_iff :
    (∃ text, b.toAscii = .ok text) ↔
      b.width + 1 < Word.count ∧ (b.width + 1) * b.height ≤ Word.maxBytes := by
  constructor
  · rintro ⟨text, h⟩
    obtain ⟨size, hsize, -⟩ := exists_of_bind_eq_ok h
    obtain ⟨hline, hroom, -⟩ := textSize_eq_ok_iff.mp hsize
    exact ⟨hline, hroom⟩
  · rintro ⟨hline, hroom⟩
    rw [toAscii, textSize_eq_ok_iff.mpr ⟨hline, hroom, rfl⟩]
    exact ⟨_, rfl⟩

/-- The lines of an image. -/
def textRows (b : Bitmap) : List (List Char) :=
  (chunksExact b.width b.pixels.toList).map (·.map Pixel.glyph)

private theorem length_textRows (hwidth : 0 < b.width) : b.textRows.length = b.height := by
  rw [textRows, List.length_map, length_chunksExact hwidth, Array.length_toList, b.size_eq,
    Nat.mul_div_cancel_left _ hwidth]

private theorem length_of_mem_textRows {line : List Char} (h : line ∈ b.textRows) :
    line.length = b.width := by
  obtain ⟨ps, hps, rfl⟩ := List.mem_map.mp h
  rw [List.length_map, length_of_mem_chunksExact hps]

private theorem getElem?_textRows (hcolumn : column < b.width) (hrow : row < b.height) :
    b.textRows[row]?.bind (·[column]?) = (b.get? column row).map Pixel.glyph := by
  have hfull : (row + 1) * b.width ≤ b.pixels.toList.length := by
    rw [Array.length_toList, b.size_eq, Nat.mul_comm b.width]
    exact Nat.mul_le_mul_right b.width hrow
  rw [textRows, List.getElem?_map, getElem?_chunksExact (Nat.zero_lt_of_lt hcolumn) hfull,
    get?_eq hcolumn hrow]
  simp [List.getElem?_take_of_lt hcolumn]

section Texts

variable {text : String} (h : b.toAscii = .ok text)

include h

theorem toList_of_toAscii (hwidth : 0 < b.width) :
    text.toList = b.textRows.flatMap (· ++ ['\n']) := by
  obtain ⟨size, -, htext⟩ := exists_of_bind_eq_ok h
  obtain rfl := Except.ok.inj htext
  rw [Nat.max_eq_left hwidth, String.toList_join, textRows]
  simp [List.flatMap_map, textLine]

theorem lines_of_toAscii (hwidth : 0 < b.width) : Text.lines text.toList = b.textRows := by
  rw [toList_of_toAscii h hwidth]
  refine (Text.HasLines.flatMap fun line hline ↦ ?_).lines_eq
  obtain ⟨ps, -, rfl⟩ := List.mem_map.mp hline
  constructor
  · intro hmem
    obtain ⟨p, -, hp⟩ := List.mem_map.mp hmem
    exact p.glyph_ne_lineEnd.1 hp
  · intro hlast
    obtain ⟨p, -, hp⟩ := List.mem_map.mp (List.mem_of_getLast? hlast)
    exact p.glyph_ne_lineEnd.2 hp

theorem toAscii_eq_iff (hcolumn : column < b.width) (hrow : row < b.height) :
    (Text.lines text.toList)[row]?.bind (·[column]?) = some p.glyph ↔
      b.get? column row = some p := by
  rw [lines_of_toAscii h (Nat.zero_lt_of_lt hcolumn), getElem?_textRows hcolumn hrow]
  exact Option.map_injective Pixel.glyph_injective |>.eq_iff' rfl

end Texts

/-! ## Counts -/

theorem count_add_count (b : Bitmap) :
    b.count .empty + b.count .curve + b.count .incomplete = b.width * b.height := by
  have hcount (ps : List Pixel) : ps.countP (· = .empty) + ps.countP (· = .curve)
      + ps.countP (· = .incomplete) = ps.length := by
    induction ps with
    | nil => rfl
    | cons p ps ih =>
      rw [List.length_cons, ← ih]
      cases p <;> simp <;> omega
  rw [count, count, count, hcount, Array.length_toList, b.size_eq]

end Bitmap

/-- **What the exports of a bitmap say.** There is a pixel in a column and row exactly if both are
within the image. The indices and the colours then have the index and the colour of this pixel, and
of no other one, at its place. There is a text exactly if the length of a line with its end fits a
word, and as many bytes can be asked for as there are characters. The text of an image with columns
has a line for each row, with a character for each column and a line feed at its end, and the lines
have the characters of the pixels at their places. The numbers of pixels of the three kinds add up,
and images of one size that agree in one of the exports are equal. -/
theorem bitmap_exports (b : Bitmap) :
    (∀ column row, (b.get? column row).isSome ↔ column < b.width ∧ row < b.height) ∧
    b.toIndices.length = b.width * b.height ∧ b.toRgb.length = 3 * (b.width * b.height) ∧
    (∀ column row (p : Pixel), column < b.width → row < b.height →
      (b.toIndices[row * b.width + column]? = some p.index ↔ b.get? column row = some p) ∧
      ((b.toRgb.drop (3 * (row * b.width + column))).take 3 = p.rgb ↔
        b.get? column row = some p)) ∧
    ((∃ text, b.toAscii = .ok text) ↔
      b.width + 1 < Word.count ∧ (b.width + 1) * b.height ≤ Word.maxBytes) ∧
    (∀ text, b.toAscii = .ok text → 0 < b.width →
      (Text.lines text.toList).length = b.height ∧
      (∀ line ∈ Text.lines text.toList, line.length = b.width) ∧
      text.toList = (Text.lines text.toList).flatMap (· ++ ['\n']) ∧
      ∀ column row (p : Pixel), column < b.width → row < b.height →
        ((Text.lines text.toList)[row]?.bind (·[column]?) = some p.glyph ↔
          b.get? column row = some p)) ∧
    b.count .empty + b.count .curve + b.count .incomplete = b.width * b.height ∧
    ∀ b' : Bitmap, b'.width = b.width → b'.height = b.height →
      (b'.toIndices = b.toIndices ∨ b'.toRgb = b.toRgb ∨
        ∃ text, b'.toAscii = .ok text ∧ b.toAscii = .ok text) → b' = b := by
  refine ⟨b.isSome_get?, ?_, b.length_toRgb, ?_, Bitmap.exists_toAscii_iff, ?_, b.count_add_count,
    ?_⟩
  · rw [Bitmap.toIndices, List.length_map, Array.length_toList, b.size_eq]
  · intro column row p hcolumn hrow
    exact ⟨Bitmap.toIndices_eq_iff hcolumn hrow, Bitmap.toRgb_eq_iff hcolumn hrow⟩
  · intro text htext hwidth
    refine ⟨?_, fun line hline ↦ ?_, ?_,
      fun column row p hcolumn hrow ↦ Bitmap.toAscii_eq_iff htext hcolumn hrow⟩
    · rw [Bitmap.lines_of_toAscii htext hwidth, Bitmap.length_textRows hwidth]
    · rw [Bitmap.lines_of_toAscii htext hwidth] at hline
      exact Bitmap.length_of_mem_textRows hline
    · rw [Bitmap.lines_of_toAscii htext hwidth]
      exact Bitmap.toList_of_toAscii htext hwidth
  · intro b' hwidth hheight hexport
    refine Bitmap.eq_of_get?_eq hwidth hheight fun column row hcolumn hrow ↦ ?_
    have hcolumn' : column < b'.width := hwidth ▸ hcolumn
    have hrow' : row < b'.height := hheight ▸ hrow
    obtain ⟨p, hp⟩ := Option.isSome_iff_exists.mp ((b.isSome_get? column row).mpr ⟨hcolumn, hrow⟩)
    rw [hp]
    rcases hexport with hindices | hrgb | ⟨text, htext', htext⟩
    · rw [← Bitmap.toIndices_eq_iff hcolumn' hrow', hindices, hwidth]
      exact (Bitmap.toIndices_eq_iff hcolumn hrow).mpr hp
    · rw [← Bitmap.toRgb_eq_iff hcolumn' hrow', hrgb, hwidth]
      exact (Bitmap.toRgb_eq_iff hcolumn hrow).mpr hp
    · rw [← Bitmap.toAscii_eq_iff htext' hcolumn' hrow']
      exact (Bitmap.toAscii_eq_iff htext hcolumn hrow).mpr hp

/-- An image that is wider than high. -/
theorem wideBitmap_exports :
    (⟨3, 2, #[.incomplete, .curve, .incomplete, .incomplete, .incomplete, .empty],
        rfl⟩ : Bitmap).get? 2 1 = some .empty ∧
      ((Bitmap.blank 3 2).set 1 .curve).set 5 .empty
        = ⟨3, 2, #[.incomplete, .curve, .incomplete, .incomplete, .incomplete, .empty], rfl⟩ := by
  obtain ⟨-, -, -, hpixels, -, -, -, hequal⟩ := bitmap_exports
    ⟨3, 2, #[.incomplete, .curve, .incomplete, .incomplete, .incomplete, .empty], rfl⟩
  exact ⟨(hpixels 2 1 .empty (by decide) (by decide)).1.mp (by decide),
    hequal _ rfl rfl (.inr (.inr ⟨"?X?\n??.\n", by decide +kernel, by decide +kernel⟩))⟩

/-- An image with as many columns as a word can count and no rows has no pixels. The length of its
lines cannot be computed, although it has none. -/
theorem widestBitmap_without_text :
    (Bitmap.blank (Word.count - 1) 0).toAscii = .error .lineOverflow ∧
      (Bitmap.blank (Word.count - 1) 0).toIndices = [] ∧
      (Bitmap.blank (Word.count - 1) 0).toRgb = [] :=
  ⟨rfl, rfl, rfl⟩

end ImplicitPlot
