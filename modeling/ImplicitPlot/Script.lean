import ImplicitPlot.Decimal.Literal
import ImplicitPlot.Formula.Parser
import ImplicitPlot.Machine.Compile
import ImplicitPlot.Plot.Region
import ImplicitPlot.Scalar.Binary64
import ImplicitPlot.Text.Blank
import ImplicitPlot.Text.Lines

/-!
# Scripts

A text that holds a formula and, on lines that start with `#`, comments and directives. A directive
starts with `#!` and names two corners of the region by four words. The lines are read in order, and
a directive with four words sets the region: if they are not the numbers of a finite region, the
default region is used, whatever earlier directives say. The lines that do not start with `#` are
the formula.
-/

namespace ImplicitPlot

/-- A formula's text, and the region to draw. -/
structure Script where
  formula : String
  region : Region Float
deriving DecidableEq, Repr

/-- The role of a line in a script. -/
inductive ScriptLine
  | formula (text : List Char)
  | comment
  | directive (words : List (List Char))
deriving DecidableEq, Repr

namespace ScriptLine

/-- The role of a line, by its first characters. -/
def ofChars : List Char → ScriptLine
  | '#' :: '!' :: rest => directive (Text.words rest)
  | '#' :: _ => comment
  | line => formula line

/-- The part of the formula on a line. -/
def formula? : ScriptLine → Option (List Char)
  | formula text => some text
  | _ => none

/-- The four words of a directive on a line. -/
def corners? : ScriptLine → Option (List Char × List Char × List Char × List Char)
  | directive [x1, y1, x2, y2] => some (x1, y1, x2, y2)
  | _ => none

end ScriptLine

/-- The finite region with two corners that are given by words. -/
def Region.ofWords? (order : CornerOrder Float) (x1 y1 x2 y2 : List Char) :
    Option (Region Float) := do
  let region := ofCorners order ⟨← Decimal.read x1, ← Decimal.read y1⟩
    ⟨← Decimal.read x2, ← Decimal.read y2⟩
  if region.IsFinite then some region else none

/-- The region after a line, given the one before it. -/
def ScriptLine.regionAfter (order : CornerOrder Float) (region : Region Float)
    (l : ScriptLine) : Region Float :=
  match l.corners? with
  | some (x1, y1, x2, y2) => (Region.ofWords? order x1 y1 x2 y2).getD (.default order)
  | none => region

namespace Script

/-- The region that is set when the lines of a script have been read. -/
def regionOf (order : CornerOrder Float) (lines : List ScriptLine) : Region Float :=
  lines.foldl (ScriptLine.regionAfter order) (.default order)

/-- Reads a script. -/
def ofText (order : CornerOrder Float) (text : String) : Script :=
  let lines := (Text.lines text.toList).map ScriptLine.ofChars
  ⟨"\n".intercalate ((lines.filterMap (·.formula?)).map String.ofList), regionOf order lines⟩

/-- Compiles the formula of a script, with or without shared values. -/
def program (s : Script) (shared : Bool) : Except SyntaxError (Program Float) := do
  let e ← Expr.parse s.formula
  return if shared then .compile e else .compileDirect e

end Script

end ImplicitPlot
