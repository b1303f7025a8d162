import ImplicitPlot.Formula.Expr
import ImplicitPlot.Interval.Power

/-!
# Instructions

The instructions of the interval machine. An operation takes its operands off the stack, the right
one first, and leaves its result; `dup` and `swap` only move values.
-/

namespace ImplicitPlot

/-- An instruction of the interval machine. -/
inductive Instruction (α : Type)
  /-- Leaves the interval of a single value. -/
  | pushConst (value : α)
  /-- Leaves the interval to which a variable is bound. -/
  | pushVar (v : Variable)
  /-- Takes two values and leaves one. -/
  | binary (op : BinaryOp)
  /-- Takes a value and leaves one. -/
  | unary (op : UnaryOp)
  /-- Leaves the top value twice. -/
  | dup
  /-- Exchanges the two top values. -/
  | swap
deriving DecidableEq, Repr

/-- An operation applied to an interval. -/
def UnaryOp.onInterval {α : Type} [Scalar α] :
    UnaryOp → Interval α → Except (Fault α) (Interval α)
  | .neg => Interval.neg
  | .abs => Interval.abs

/-- An operation applied to two intervals. -/
def BinaryOp.onIntervals {α : Type} [Scalar α] :
    BinaryOp → Interval α → Interval α → Except (Fault α) (Interval α)
  | .add => Interval.add
  | .sub => Interval.sub
  | .mul => Interval.mul
  | .div => Interval.div
  | .pow => Interval.pow

namespace Instruction

variable {α : Type}

/-- The change in the height of the stack. -/
def stackEffect : Instruction α → Int
  | pushConst _ | pushVar _ | dup => 1
  | binary _ => -1
  | unary _ | swap => 0

/-- The height of the stack after an instruction that finds its operands. -/
def heightAfter (i : Instruction α) (height : Nat) : Nat := (height + i.stackEffect).toNat

/-- The greatest height that the stack reaches while instructions run, starting at a given
height. -/
def peak (height : Nat) : List (Instruction α) → Nat
  | [] => height
  | i :: is => max height (peak (i.heightAfter height) is)

end Instruction

/-- A list of instructions, with the number of stack slots that it asks for. -/
structure Program (α : Type) where
  code : List (Instruction α)
  stackSize : Nat
deriving DecidableEq, Repr

end ImplicitPlot
