import ImplicitPlot.Machine.Context
import ImplicitPlot.Machine.Instruction

/-!
# Running programs

A run starts with an empty stack, which is given the slots that the program asks for, and ends with
the one value that the program leaves. Variables stay bound from run to run.
-/

namespace ImplicitPlot

variable {α : Type} [Scalar α]

open Evaluation

/-- The effect of one instruction. -/
def Instruction.step : Instruction α → Evaluation α Unit
  | pushConst c => push (.point c)
  | pushVar v => do push (← lookup v)
  | unary op => do
    let a ← pop
    push (← lift (op.onInterval a))
  | binary op => do
    let b ← pop
    let a ← pop
    push (← lift (op.onIntervals a b))
  | dup => do push (← top)
  | swap => Evaluation.swap

namespace Program

/-- The effects of instructions, in order. -/
def steps : List (Instruction α) → Evaluation α Unit
  | [] => pure ()
  | i :: is => do
    i.step
    steps is

/-- The one value that is left on the stack. -/
def result : Evaluation α (Interval α) := fun c ↦
  if c.stack.height = 1 then pop c else .error (.badResult c.stack.height) c

/-- Runs a program. -/
def execute (p : Program α) : Evaluation α (Interval α) := do
  modify (·.reset p.stackSize)
  steps p.code
  result

/-- Runs a program with the coordinates bound to intervals. -/
def executeOver (p : Program α) (x y : Interval α) : Evaluation α (Interval α) := do
  assign .x x
  assign .y y
  p.execute

/-- A context that suits a program. -/
def newContext (p : Program α) : Context α := .new p.stackSize

end Program

end ImplicitPlot
