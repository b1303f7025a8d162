import ImplicitPlot.Interval
import ImplicitPlot.Machine.Stack
import ImplicitPlot.Variable

/-!
# Evaluation contexts

What a program runs in: a stack of intervals and an interval for each variable. A context outlives
the runs, so an evaluation keeps its effects on the context also when it ends in a fault.
-/

namespace ImplicitPlot

/-- The state of the interval machine. -/
structure Context (α : Type) where
  stack : Stack (Interval α)
  bindings : Vector (Interval α) Variable.count

/-- What is done in a context, and may end in a fault. -/
abbrev Evaluation (α β : Type) := EStateM (Fault α) (Context α) β

namespace Context

variable {α : Type}

/-- Binds a variable to an interval. -/
def assign (c : Context α) (v : Variable) (a : Interval α) : Context α :=
  { c with bindings := c.bindings.set v.index a }

/-- The interval to which a variable is bound. -/
def lookup (c : Context α) (v : Variable) : Interval α := c.bindings[v.index]

/-- The number of stack slots. -/
def capacity (c : Context α) : Nat := c.stack.capacity

variable [Scalar α]

/-- A context with the given number of stack slots, in which every variable is zero. -/
def new (capacity : Nat) : Context α :=
  ⟨.empty capacity (.point 0), Vector.replicate _ (.point 0)⟩

/-- Empties the stack, which then has at least the given number of slots. -/
def reset (c : Context α) (capacity : Nat) : Context α :=
  { c with stack := c.stack.reset capacity (.point 0) }

end Context

namespace Evaluation

variable {α β : Type}

/-- A result that does not depend on the context. -/
def lift : Except (Fault α) β → Evaluation α β
  | .ok b => fun c ↦ .ok b c
  | .error f => fun c ↦ .error f c

/-- Puts a value on the stack. -/
def push (a : Interval α) : Evaluation α Unit := fun c ↦
  if h : c.stack.height < c.stack.capacity then .ok () { c with stack := c.stack.push a h }
  else .error (.stackOverflow c.stack.capacity) c

/-- Takes a value off the stack. -/
def pop : Evaluation α (Interval α) := fun c ↦
  if h : 0 < c.stack.height then .ok (c.stack.top h) { c with stack := c.stack.drop }
  else .error .stackUnderflow c

/-- The value on top of the stack. -/
def top : Evaluation α (Interval α) := fun c ↦
  if h : 0 < c.stack.height then .ok (c.stack.top h) c else .error .stackUnderflow c

/-- Exchanges the two top values. -/
def swap : Evaluation α Unit := fun c ↦
  if h : 2 ≤ c.stack.height then .ok () { c with stack := c.stack.swap h }
  else .error .stackUnderflow c

/-- The interval to which a variable is bound. -/
def lookup (v : Variable) : Evaluation α (Interval α) := fun c ↦ .ok (c.lookup v) c

/-- Binds a variable. -/
def assign (v : Variable) (a : Interval α) : Evaluation α Unit := fun c ↦ .ok () (c.assign v a)

end Evaluation

end ImplicitPlot
