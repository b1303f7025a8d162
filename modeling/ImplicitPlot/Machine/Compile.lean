import ImplicitPlot.Machine.Plan

/-!
# Compiling formulas

A formula becomes the instructions of its plan, with a stack that is large enough for the formula
as it is written and for the instructions.
-/

namespace ImplicitPlot.Program

variable {α : Type}

/-- The program for a plan of a formula. -/
def ofPlan (e : Expr α) (plan : Plan α) : Program α :=
  ⟨plan.code, max e.depth (Instruction.peak 0 plan.code)⟩

/-- Compiles a formula as it is written. -/
def compileDirect (e : Expr α) : Program α := ofPlan e (.direct e)

/-- Compiles a formula with shared values. -/
def compile [Scalar α] (e : Expr α) : Program α := ofPlan e (.rewritten e)

end ImplicitPlot.Program
