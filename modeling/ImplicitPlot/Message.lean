import ImplicitPlot.Decimal.Layout
import ImplicitPlot.Formula.Token
import ImplicitPlot.Plot.Render

/-!
# Messages

What is shown to a user: intervals, regions and sizes, and the wording of everything that can go
wrong.
-/

namespace ImplicitPlot

/-- An interval, by its bounds. -/
def Interval.text (a : Interval Float) : String :=
  "[" ++ Decimal.text a.lower ++ ", " ++ Decimal.text a.upper ++ "]"

/-- An interval as a pair of bounds, each with the kind of number marked. -/
def Interval.markedText (a : Interval Float) : String :=
  "(" ++ Decimal.markedText a.lower ++ ", " ++ Decimal.markedText a.upper ++ ")"

/-- A region, by its range along each axis. -/
def Region.text (r : Region Float) : String :=
  Interval.text ⟨r.min.x, r.max.x⟩ ++ " × " ++ Interval.text ⟨r.min.y, r.max.y⟩

/-- A size, width first. -/
def ImageSize.text (s : ImageSize) : String := toString s.columns ++ "×" ++ toString s.rows

/-- The wording of a fault. -/
def Fault.message : Fault Float → String
  | .divisionByZero => "division by zero"
  | .nonIntegerExponent => "non-integer exponent of negative base"
  | .stackOverflow capacity => "stack overflow (capacity " ++ toString capacity ++ ")"
  | .stackUnderflow => "stack underflow"
  | .badVariable slot => "invalid variable slot " ++ toString slot
  | .badResult height => "program left " ++ toString height ++ " values on the stack"
  | .invalidBounds lower upper => "invalid interval " ++ Interval.text ⟨lower, upper⟩

/-- What was expected, in the words of a message. -/
def Expectation.text : Expectation → String
  | .number => "a number"
  | .token => "a number, variable, operator, or bracket"
  | .closeParen => "')'"
  | .closeBar => "'|'"
  | .primary => "'(', '|', a variable, or a number"
  | .operatorOrEnd => "operator or end of input"
  | .lessNesting => "a less deeply nested formula"

/-- The wording of a syntax error. -/
def SyntaxError.message (e : SyntaxError) : String :=
  "syntax error at position " ++ toString e.position ++ ": expected " ++ e.expected.text

/-- The wording of a fault at a pixel. -/
def FaultSite.message (s : FaultSite Float) : String :=
  s.fault.message ++ "\nPoint: (" ++ Decimal.text s.corner.x ++ ", " ++
    Decimal.text s.corner.y ++ ")"

/-- The wording of the reasons for which there is no picture. -/
def RenderError.message : RenderError Float → String
  | .emptyImage size =>
    "image size must be non-zero (" ++ toString size.columns ++ " x " ++ toString size.rows ++ ")"
  | .nonFiniteRegion => "render region and its size must be finite"
  | .tooManyRows => "attempt to multiply with overflow"
  | .noPool reason => "could not build thread pool: " ++ reason.message
  | .faultAt site => site.message

/-- The wording of the reasons for which an image has no text. -/
def Bitmap.TextError.message : Bitmap.TextError → String
  | .lineOverflow => "attempt to add with overflow"
  | .sizeOverflow => "attempt to multiply with overflow"
  | .noRoom => "capacity overflow"

end ImplicitPlot
