/-!
# Faults

What can go wrong while a formula is evaluated. Two faults are *arithmetic*: they depend on the
values at hand, and say nothing about other values. The rest point at a malformed program or at
bounds that no interval has.
-/

namespace ImplicitPlot

/-- The reason why an evaluation gives no value. -/
inductive Fault (α : Type)
  /-- The divisor, or a base with a negative exponent, touches zero. -/
  | divisionByZero
  /-- A negative base has an exponent that is not one integer. -/
  | nonIntegerExponent
  /-- The stack, of the given capacity, is full. -/
  | stackOverflow (capacity : Nat)
  /-- An instruction finds too few values on the stack. -/
  | stackUnderflow
  /-- No variable has the given slot. -/
  | badVariable (slot : Nat)
  /-- The program left the given number of values on the stack, not one. -/
  | badResult (height : Nat)
  /-- The computed bounds are not those of an interval. -/
  | invalidBounds (lower upper : α)
deriving DecidableEq, Repr

/-- The fault depends on the values, not on the program. -/
def Fault.isArithmetic {α : Type} : Fault α → Bool
  | .divisionByZero | .nonIntegerExponent => true
  | _ => false

end ImplicitPlot
