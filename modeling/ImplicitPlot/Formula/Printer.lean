import ImplicitPlot.Decimal.Layout
import ImplicitPlot.Formula.Expr

/-!
# Writing formulas

Every operation is written with its own parentheses, or bars for a magnitude, so that the text
shows the tree.
-/

namespace ImplicitPlot

/-- The text of a formula. -/
def Expr.text : Expr Float → String
  | .const c => Decimal.text c
  | .var v => v.text
  | .unary .neg a => "(-" ++ a.text ++ ")"
  | .unary .abs a => "|" ++ a.text ++ "|"
  | .binary op a b => "(" ++ a.text ++ " " ++ op.symbol.toString ++ " " ++ b.text ++ ")"

end ImplicitPlot
