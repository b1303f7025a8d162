/-!
# Lines and fields

A line ends with a line feed, or with a carriage return and a line feed; the last line of a text
may go without, and then keeps a carriage return at its end.
-/

namespace ImplicitPlot.Text

/-- A line, given in reverse with its line feed taken off, without the carriage return before
it. -/
def endLine : List Char → List Char
  | '\r' :: line => line.reverse
  | line => line.reverse

/-- The lines of a text, with the line read so far in reverse. -/
def linesFrom (line : List Char) : List Char → List (List Char)
  | [] => if line.isEmpty then [] else [line.reverse]
  | c :: cs => if c = '\n' then endLine line :: linesFrom [] cs else linesFrom (c :: line) cs

/-- The lines of a text, without their ends. -/
def lines (cs : List Char) : List (List Char) := linesFrom [] cs

/-- The fields between the occurrences of a separator, with the field read so far in reverse. -/
def fieldsFrom (separator : Char) (field : List Char) : List Char → List (List Char)
  | [] => [field.reverse]
  | c :: cs =>
    if c = separator then field.reverse :: fieldsFrom separator [] cs
    else fieldsFrom separator (c :: field) cs

/-- The fields between the occurrences of a separator: one more than there are separators. -/
def fields (separator : Char) (cs : List Char) : List (List Char) := fieldsFrom separator [] cs

end ImplicitPlot.Text
