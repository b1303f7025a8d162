import ImplicitPlot.Fault
import ImplicitPlot.Formula.Expr

/-!
# The value of a formula at a point

Plain evaluation with one number for each variable. The faults are those of evaluation over
intervals: a divisor must stay clear of zero, and a negative base needs an exponent near an
integer, to which the exponent is then rounded.
-/

namespace ImplicitPlot

variable {α : Type} [Scalar α]

open Scalar

/-- An operation applied to a number. -/
def UnaryOp.onNumber : UnaryOp → α → α
  | .neg, a => -a
  | .abs, a => Scalar.abs a

/-- An operation applied to two numbers. -/
def BinaryOp.onNumbers : BinaryOp → α → α → Except (Fault α) α
  | .add, a, b => .ok (a + b)
  | .sub, a, b => .ok (a - b)
  | .mul, a, b => .ok (a * b)
  | .div, a, b => if Scalar.abs b ≤ zeroTolerance then .error .divisionByZero else .ok (a / b)
  | .pow, a, b =>
    if a < 0 then
      if zeroTolerance < Scalar.abs (b - round b) then .error .nonIntegerExponent
      else .ok (Scalar.pow a (round b))
    else .ok (Scalar.pow a b)

namespace Expr

/-- The value of a formula where each variable has one number. -/
def atPoint (vars : Variable → α) : Expr α → Except (Fault α) α
  | const c => .ok c
  | var v => .ok (vars v)
  | unary op a => do
    let a ← a.atPoint vars
    return op.onNumber a
  | binary op a b => do
    let a ← a.atPoint vars
    let b ← b.atPoint vars
    op.onNumbers a b

end Expr

end ImplicitPlot
