import ImplicitPlot.Text.Blank
import ImplicitPlot.Text.Lines
import Mathlib.Data.List.Basic

/-!
# Lines and words of a text

The functions that split a text carry the piece read so far in reverse. What they return is
described here without it: the lines by how each one ends (`Text.HasLines`), and the words as the
pieces between blanks that are not empty.
-/

namespace ImplicitPlot.Text

/-! ## Lines -/

/-- The text consists of these lines. Each one ends with a line feed, or with a carriage return and
a line feed; what stands after the last line feed is a line if it is not empty. -/
inductive HasLines : List Char → List (List Char) → Prop
  | nil : HasLines [] []
  | last {line} (hne : line ≠ []) (hline : '\n' ∉ line) : HasLines line [line]
  | lineFeed {line cs ls} (hline : '\n' ∉ line) (hend : line.getLast? ≠ some '\r')
      (h : HasLines cs ls) : HasLines (line ++ '\n' :: cs) (line :: ls)
  | crlf {line cs ls} (hline : '\n' ∉ line) (h : HasLines cs ls) :
      HasLines (line ++ '\r' :: '\n' :: cs) (line :: ls)

variable {line cs : List Char} {ls : List (List Char)}

/-- A text in which each line is followed by a line feed. -/
theorem HasLines.flatMap (h : ∀ line ∈ ls, '\n' ∉ line ∧ line.getLast? ≠ some '\r') :
    HasLines (ls.flatMap (· ++ ['\n'])) ls := by
  induction ls with
  | nil => exact .nil
  | cons line ls ih =>
    obtain ⟨hline, hend⟩ := h line List.mem_cons_self
    rw [List.flatMap_cons, List.append_assoc, List.singleton_append]
    exact .lineFeed hline hend (ih fun l hl ↦ h l (List.mem_cons_of_mem _ hl))

private theorem linesFrom_append (hline : '\n' ∉ line) (acc cs : List Char) :
    linesFrom acc (line ++ cs) = linesFrom (line.reverse ++ acc) cs := by
  induction line generalizing acc with
  | nil => rfl
  | cons c line ih =>
    obtain ⟨hc, hline⟩ := List.ne_and_not_mem_of_not_mem_cons hline
    rw [List.cons_append, linesFrom, if_neg hc.symm, ih hline, List.reverse_cons, List.append_assoc,
      List.singleton_append]

private theorem endLine_reverse (hend : line.getLast? ≠ some '\r') :
    endLine line.reverse = line := by
  rw [← List.head?_reverse] at hend
  rw [endLine.eq_def]
  split
  next rest heq =>
    rw [heq] at hend
    exact absurd rfl hend
  next => exact line.reverse_reverse

theorem HasLines.lines_eq (h : HasLines cs ls) : lines cs = ls := by
  induction h with
  | nil => rfl
  | @last line hne hline =>
    have happend := linesFrom_append hline [] []
    rw [List.append_nil, List.append_nil] at happend
    rw [lines, happend, linesFrom, if_neg (by simpa using hne), List.reverse_reverse]
  | @lineFeed line cs ls hline hend h ih =>
    rw [lines, linesFrom_append hline, linesFrom, if_pos rfl, List.append_nil, endLine_reverse hend,
      ← lines, ih]
  | @crlf line cs ls hline h ih =>
    rw [lines, linesFrom_append hline, linesFrom, if_neg (by decide), linesFrom, if_pos rfl,
      List.append_nil, endLine, List.reverse_reverse, ← lines, ih]

private theorem hasLines_linesFrom {acc : List Char} (hacc : '\n' ∉ acc) (cs : List Char) :
    HasLines (acc.reverse ++ cs) (linesFrom acc cs) := by
  induction cs generalizing acc with
  | nil =>
    rw [List.append_nil, linesFrom]
    cases acc with
    | nil => exact .nil
    | cons c acc =>
      exact .last (List.reverse_ne_nil_iff.mpr (List.cons_ne_nil c acc))
        (mt List.mem_reverse.mp hacc)
  | cons c cs ih =>
    rw [linesFrom]
    split
    next hc =>
      -- The line is complete, and the rest is read with nothing carried over.
      subst hc
      rw [endLine.eq_def]
      split
      next acc =>
        have hline : '\n' ∉ acc.reverse :=
          mt List.mem_reverse.mp (List.not_mem_of_not_mem_cons hacc)
        rw [List.reverse_cons, List.append_assoc, List.singleton_append]
        exact .crlf hline (ih List.not_mem_nil)
      next hend =>
        refine .lineFeed (mt List.mem_reverse.mp hacc) (fun hlast ↦ ?_) (ih List.not_mem_nil)
        rw [List.getLast?_reverse] at hlast
        obtain ⟨rest, hrest⟩ := List.head?_eq_some_iff.mp hlast
        exact hend rest hrest
    next hc =>
      have happend : acc.reverse ++ c :: cs = (c :: acc).reverse ++ cs := by simp
      rw [happend]
      exact ih (List.not_mem_cons_of_ne_of_not_mem (Ne.symm hc) hacc)

/-- **The lines of a text** are the only ones that it consists of. -/
theorem lines_eq_iff : lines cs = ls ↔ HasLines cs ls := by
  constructor
  · rintro rfl
    exact hasLines_linesFrom List.not_mem_nil cs
  · exact HasLines.lines_eq

/-! ## Words -/

private theorem wordsFrom_eq (word cs : List Char) :
    wordsFrom word cs
      = ((cs.splitOnP isBlank).modifyHead (word.reverse ++ ·)).filter (· ≠ []) := by
  induction cs generalizing word with
  | nil => cases word <;> simp [wordsFrom]
  | cons c cs ih =>
    rw [wordsFrom, List.splitOnP_cons_eq_if_modifyHead]
    split
    next hblank =>
      have hid : (cs.splitOnP isBlank).modifyHead (([] : List Char).reverse ++ ·)
          = cs.splitOnP isBlank := congrFun List.modifyHead_id _
      rw [ih, hid]
      cases word <;> simp
    next hblank =>
      rw [ih, List.modifyHead_modifyHead]
      simp [Function.comp_def]

/-- **The words of a text** are the pieces between its blanks, empty ones left out. -/
theorem words_eq (cs : List Char) : words cs = (cs.splitOnP isBlank).filter (· ≠ []) := by
  rw [words, wordsFrom_eq]
  exact congrArg _ (congrFun List.modifyHead_id _)

end ImplicitPlot.Text
