import ImplicitPlot.Scalar
import ImplicitPlot.Variable

/-!
# Formulas

A formula as a tree, with the measures and comparisons of trees that do not evaluate them. Two
comparisons share one shape: the same operations and variables in the same places, and constants
that are related pairwise (`Alike`).
-/

namespace ImplicitPlot

/-- An operation on one value. -/
inductive UnaryOp
  | neg
  | abs
deriving DecidableEq, Repr

/-- An operation on two values. -/
inductive BinaryOp
  | add
  | sub
  | mul
  | div
  | pow
deriving DecidableEq, Repr

/-- The sign of an operation in a formula. -/
def BinaryOp.symbol : BinaryOp → Char
  | .add => '+'
  | .sub => '-'
  | .mul => '*'
  | .div => '/'
  | .pow => '^'

/-- A formula over constants of a given type. -/
inductive Expr (α : Type)
  | const (value : α)
  | var (v : Variable)
  | unary (op : UnaryOp) (a : Expr α)
  | binary (op : BinaryOp) (a b : Expr α)
deriving DecidableEq, Repr

namespace Expr

variable {α : Type}

/-- The number of values that are held at once when operands are evaluated from left to right and
an operation takes the place of its operands. -/
def depth : Expr α → Nat
  | const _ | var _ => 1
  | unary _ a => a.depth
  | binary _ a b => 1 + max a.depth b.depth

/-- The formula names no variable. -/
def isConstant : Expr α → Bool
  | const _ => true
  | var _ => false
  | unary _ a => a.isConstant
  | binary _ a b => a.isConstant && b.isConstant

/-- Two formulas have the same shape, and their constants are related pairwise. -/
def alike (related : α → α → Bool) : Expr α → Expr α → Bool
  | const a, const b => related a b
  | var v, var w => v = w
  | unary op a, unary op' a' => op = op' && alike related a a'
  | binary op a b, binary op' a' b' => op = op' && alike related a a' && alike related b b'
  | _, _ => false

variable [Scalar α]

open Scalar

/-- Two formulas have the same shape and equal constants; a constant that is not a number equals
none. -/
def equals : Expr α → Expr α → Bool := alike fun a b ↦ Agree a b

/-- Two formulas have the same shape, and constants that are equal up to the tolerance. -/
def nearlyEquals : Expr α → Expr α → Bool :=
  alike fun a b ↦ Scalar.abs (a - b) ≤ constantTolerance

/-- The integer that a constant stands for, if the constant is within the tolerance of one that a
power may have. -/
def asInteger? : Expr α → Option Int
  | const c =>
    let k := round c
    if Scalar.abs (c - k) ≤ constantTolerance ∧ Scalar.abs k < 1e15 then some (toInt k) else none
  | _ => none

end Expr

end ImplicitPlot
