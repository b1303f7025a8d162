import ImplicitPlot.Script
import Mathlib.Data.List.Basic
import Mathlib.Logic.Relation

/-!
# The roles of the lines of a script

A line of a script either belongs to the formula, or decides about the region, or does neither: it
is a comment, or a directive that does not have four words. The formula consists of the lines of the
first role, and the last line of the second role decides alone. So lines of the third role can be
written anywhere, and lines that start with `#` can be moved past lines of the formula.
-/

namespace ImplicitPlot

namespace ScriptLine

variable {line x1 y1 x2 y2 : List Char}

/-- The line is a directive with four words. -/
def Decides (line : List Char) : Prop :=
  ∃ rest, line = '#' :: '!' :: rest ∧ (Text.words rest).length = 4

/-- The line is a comment, or a directive that does not have four words. -/
def IsIdle (line : List Char) : Prop := line.head? = some '#' ∧ ¬Decides line

private theorem formula?_ofChars (line : List Char) :
    (ofChars line).formula? = if line.head? = some '#' then none else some line := by
  rw [ofChars.eq_def]
  split
  · rfl
  · rfl
  next hdirective hcomment =>
    refine (if_neg fun hhead ↦ ?_).symm
    obtain ⟨rest, rfl⟩ := List.head?_eq_some_iff.mp hhead
    exact hcomment rest rfl

theorem corners?_ofChars_eq_some_iff :
    (ofChars line).corners? = some (x1, y1, x2, y2) ↔
      ∃ rest, line = '#' :: '!' :: rest ∧ Text.words rest = [x1, y1, x2, y2] := by
  constructor
  · intro h
    rw [ofChars.eq_def] at h
    split at h
    next rest =>
      rw [corners?.eq_def] at h
      split at h
      next hwords =>
        injection hwords with hwords
        cases h
        exact ⟨rest, rfl, hwords⟩
      next => cases h
    next => cases h
    next => cases h
  · rintro ⟨rest, rfl, hwords⟩
    rw [ofChars, hwords, corners?]

theorem corners?_ofChars_eq_none_iff : (ofChars line).corners? = none ↔ ¬Decides line := by
  rw [Option.eq_none_iff_forall_ne_some]
  constructor
  · rintro h ⟨rest, rfl, hlength⟩
    obtain ⟨x1, y1, x2, y2, hwords⟩ := List.length_eq_four.mp hlength
    exact h _ (corners?_ofChars_eq_some_iff.mpr ⟨rest, rfl, hwords⟩)
  · rintro h ⟨x1, y1, x2, y2⟩ hcorners
    obtain ⟨rest, rfl, hwords⟩ := corners?_ofChars_eq_some_iff.mp hcorners
    exact h ⟨rest, rfl, congrArg List.length hwords⟩

@[simp] theorem regionAfter_of_corners?_eq_none {order : CornerOrder Float} {l : ScriptLine}
    (h : l.corners? = none) (region : Region Float) : l.regionAfter order region = region := by
  rw [regionAfter, h]

theorem regionAfter_of_corners?_eq_some {order : CornerOrder Float} {l : ScriptLine}
    (h : l.corners? = some (x1, y1, x2, y2)) (region : Region Float) :
    l.regionAfter order region = (Region.ofWords? order x1 y1 x2 y2).getD (.default order) := by
  rw [regionAfter, h]

end ScriptLine

open ScriptLine (Decides IsIdle)

theorem Region.ofWords?_eq_none {order : CornerOrder Float} {x1 y1 x2 y2 : List Char}
    (h : ∃ word ∈ [x1, y1, x2, y2], Decimal.read word = none) :
    ofWords? order x1 y1 x2 y2 = none := by
  simp only [List.mem_cons, List.not_mem_nil, or_false] at h
  obtain ⟨word, rfl | rfl | rfl | rfl, hword⟩ := h <;> simp [ofWords?, hword]

namespace Script

variable {order : CornerOrder Float}

/-! ## Reading line by line -/

theorem regionOf_append (before : List ScriptLine) {after : List ScriptLine}
    (h : ∀ l ∈ after, l.corners? = none) :
    regionOf order (before ++ after) = regionOf order before := by
  rw [regionOf, List.foldl_append]
  induction after with
  | nil => rfl
  | cons l after ih =>
    rw [List.foldl_cons, ScriptLine.regionAfter_of_corners?_eq_none (h l List.mem_cons_self)]
    exact ih fun l' hl' ↦ h l' (List.mem_cons_of_mem _ hl')

/-- The last line that decides asks for the region, whatever the lines before it ask for. -/
theorem regionOf_append_cons {before after : List ScriptLine} {l : ScriptLine}
    {x1 y1 x2 y2 : List Char} (hl : l.corners? = some (x1, y1, x2, y2))
    (h : ∀ l ∈ after, l.corners? = none) :
    regionOf order (before ++ l :: after)
      = (Region.ofWords? order x1 y1 x2 y2).getD (.default order) := by
  rw [List.append_cons, regionOf_append _ h, regionOf, List.foldl_concat,
    ScriptLine.regionAfter_of_corners?_eq_some hl]

theorem region_ofText {text : String} {before after : List (List Char)}
    {rest x1 y1 x2 y2 : List Char}
    (hlines : Text.lines text.toList = before ++ ('#' :: '!' :: rest) :: after)
    (hwords : Text.words rest = [x1, y1, x2, y2]) (hafter : ∀ line ∈ after, ¬Decides line) :
    (ofText order text).region
      = (Region.ofWords? order x1 y1 x2 y2).getD (.default order) := by
  change regionOf order ((Text.lines text.toList).map ScriptLine.ofChars) = _
  rw [hlines, List.map_append, List.map_cons]
  refine regionOf_append_cons
    (ScriptLine.corners?_ofChars_eq_some_iff.mpr ⟨rest, rfl, hwords⟩) fun l hl ↦ ?_
  obtain ⟨line, hmem, rfl⟩ := List.mem_map.mp hl
  exact ScriptLine.corners?_ofChars_eq_none_iff.mpr (hafter line hmem)

theorem region_ofText_eq_default {text : String}
    (h : ∀ line ∈ Text.lines text.toList, ¬Decides line) :
    (ofText order text).region = .default order := by
  refine regionOf_append [] fun l hl ↦ ?_
  obtain ⟨line, hmem, rfl⟩ := List.mem_map.mp hl
  exact ScriptLine.corners?_ofChars_eq_none_iff.mpr (h line hmem)

theorem formula_ofText (text : String) :
    (ofText order text).formula = "\n".intercalate
      (((Text.lines text.toList).filter (·.head? ≠ some '#')).map String.ofList) := by
  have hfilter (ls : List (List Char)) :
      (ls.map ScriptLine.ofChars).filterMap (·.formula?) = ls.filter (·.head? ≠ some '#') := by
    rw [List.filterMap_map, ← List.filterMap_eq_filter]
    refine congrFun (congrArg _ (funext fun line ↦ ?_)) ls
    rw [Function.comp_apply, ScriptLine.formula?_ofChars, Option.guard]
    split <;> simp [*]
  change "\n".intercalate _ = _
  rw [hfilter]

/-! ## Edits -/

/-- An edit of the lines of a script that does not touch its contents. -/
inductive Edit : List (List Char) → List (List Char) → Prop
  /-- A line that neither belongs to the formula nor decides is written anywhere. -/
  | insert (before after) {line} (hidle : IsIdle line) :
      Edit (before ++ after) (before ++ line :: after)
  /-- A line that starts with `#` is moved past one that does not. -/
  | move (before after) {line next} (hline : line.head? = some '#')
      (hnext : next.head? ≠ some '#') :
      Edit (before ++ line :: next :: after) (before ++ next :: line :: after)

variable {ls ls' : List (List Char)}

theorem Edit.filter_eq (h : Edit ls ls') :
    ls.filter (·.head? ≠ some '#') = ls'.filter (·.head? ≠ some '#') := by
  cases h with
  | insert before after hidle => simp [hidle.1]
  | move before after hline hnext => simp [hline, hnext]

theorem Edit.regionOf_eq (h : Edit ls ls') :
    regionOf order (ls.map ScriptLine.ofChars) = regionOf order (ls'.map ScriptLine.ofChars) := by
  rw [regionOf, regionOf]
  cases h with
  | insert before after hidle =>
    simp [ScriptLine.corners?_ofChars_eq_none_iff.mpr hidle.2]
  | @move before after line next hline hnext =>
    have hdecides : ¬Decides next := by
      rintro ⟨rest, rfl, -⟩
      exact hnext rfl
    simp [ScriptLine.corners?_ofChars_eq_none_iff.mpr hdecides]

theorem ofText_eq_of_edits {text text' : String}
    (h : Relation.EqvGen Edit (Text.lines text.toList) (Text.lines text'.toList)) :
    ofText order text = ofText order text' := by
  have hcontents {ls ls' : List (List Char)} (h : Relation.EqvGen Edit ls ls') :
      ls.filter (·.head? ≠ some '#') = ls'.filter (·.head? ≠ some '#') ∧
        regionOf order (ls.map ScriptLine.ofChars)
          = regionOf order (ls'.map ScriptLine.ofChars) := by
    induction h with
    | rel ls ls' h => exact ⟨h.filter_eq, h.regionOf_eq⟩
    | refl ls => exact ⟨rfl, rfl⟩
    | symm ls ls' _ ih => exact ⟨ih.1.symm, ih.2.symm⟩
    | trans ls ls' ls'' _ _ ih ih' => exact ⟨ih.1.trans ih'.1, ih.2.trans ih'.2⟩
  obtain ⟨hformula, hregion⟩ := hcontents h
  have hformula' : (ofText order text).formula = (ofText order text').formula := by
    rw [formula_ofText, formula_ofText, hformula]
  have hregion' : (ofText order text).region = (ofText order text').region := hregion
  calc ofText order text = ⟨(ofText order text).formula, (ofText order text).region⟩ := rfl
    _ = ⟨(ofText order text').formula, (ofText order text').region⟩ := by rw [hformula', hregion']

end Script

/-- **The contents of a script.** The formula consists of the lines that do not start with `#`, in
order. The region is the one that the four words of the last directive with four words name; it is
the default one if there is no such directive, and if one of the words is not a number. Directives
before the last one do not count, be they good or bad. So comments and directives with another
number of words can be written or left out, and comments and directives can be moved past lines of
the formula, without a change of the script. -/
theorem script_contents (order : CornerOrder Float) (text : String) :
    (Script.ofText order text).formula = "\n".intercalate
      (((Text.lines text.toList).filter (·.head? ≠ some '#')).map String.ofList) ∧
    ((∀ line ∈ Text.lines text.toList, ¬Decides line) →
      (Script.ofText order text).region = .default order) ∧
    (∀ (before after : List (List Char)) (rest x1 y1 x2 y2 : List Char),
      Text.lines text.toList = before ++ ('#' :: '!' :: rest) :: after →
      Text.words rest = [x1, y1, x2, y2] → (∀ line ∈ after, ¬Decides line) →
      (Script.ofText order text).region
        = (Region.ofWords? order x1 y1 x2 y2).getD (.default order) ∧
      ((∃ word ∈ [x1, y1, x2, y2], Decimal.read word = none) →
        (Script.ofText order text).region = .default order)) ∧
    ∀ text', Relation.EqvGen Script.Edit (Text.lines text.toList) (Text.lines text'.toList) →
      Script.ofText order text' = Script.ofText order text := by
  refine ⟨Script.formula_ofText text, Script.region_ofText_eq_default, ?_, fun text' h ↦ ?_⟩
  · intro before after rest x1 y1 x2 y2 hlines hwords hafter
    have hlast : (Script.ofText order text).region
        = (Region.ofWords? order x1 y1 x2 y2).getD (.default order) :=
      Script.region_ofText hlines hwords hafter
    refine ⟨hlast, fun hunread ↦ ?_⟩
    rw [hlast, Region.ofWords?_eq_none hunread, Option.getD_none]
  · exact (Script.ofText_eq_of_edits h).symm

/-- A comment is left out, a directive is moved past a line of the formula, and a word that is not a
number discards the directive before it. -/
theorem editedScript_unchanged :
    (Script.ofText .comparing "x\r\n#! 0 0 4 2\n# c\n- y").formula = "x\n- y" ∧
      Script.ofText .comparing "#! 0 0 4 2\nx\n- y\n"
        = Script.ofText .comparing "x\r\n#! 0 0 4 2\n# c\n- y" ∧
      (Script.ofText .comparing "#! 0 0 4 2\n#! 1 2 three 4\n#! 5\nx").region
        = .default .comparing := by
  obtain ⟨hformula, -, -, hedits⟩ := script_contents .comparing "x\r\n#! 0 0 4 2\n# c\n- y"
  obtain ⟨-, -, hlast, -⟩ := script_contents .comparing "#! 0 0 4 2\n#! 1 2 three 4\n#! 5\nx"
  refine ⟨?_, hedits _ ?_, ?_⟩
  · rw [hformula]
    decide +kernel
  · have hcomment : IsIdle "# c".toList := by
      refine ⟨rfl, ?_⟩
      rintro ⟨rest, hrest, -⟩
      cases hrest
    have hinsert := Script.Edit.insert ["x".toList, "#! 0 0 4 2".toList] ["- y".toList] hcomment
    have hmove := @Script.Edit.move [] ["- y".toList] "#! 0 0 4 2".toList "x".toList rfl (by decide)
    exact .symm _ _ (.trans _ _ _ (.rel _ _ hmove) (.rel _ _ hinsert))
  · refine (hlast ["#! 0 0 4 2".toList] ["#! 5".toList, "x".toList] " 1 2 three 4".toList "1".toList
      "2".toList "three".toList "4".toList (by decide +kernel) (by decide +kernel)
      fun line hline ↦ ?_).2 ⟨"three".toList, by simp, by decide +kernel⟩
    rw [← ScriptLine.corners?_ofChars_eq_none_iff]
    revert line
    decide +kernel

end ImplicitPlot
