/-!
# Scalars

The number operations that intervals, formulas and images are built on, as one class *without
laws*. Everything above this layer is written against the class: the plotter runs on binary64
numbers (`Scalar.Binary64`), while a statement about exact arithmetic reads the same definitions
over a field.

The order is not assumed to be total. A value that is not below itself is *not a number*, and
`minNum` and `maxNum` pass such a value over, keeping the first of two values that tie.
-/

namespace ImplicitPlot

/-- A type of numbers, with the operations that a formula may use. -/
class Scalar (α : Type) extends Add α, Sub α, Mul α, Div α, Neg α, Zero α, One α, NatCast α,
    OfScientific α, LE α, LT α where
  /-- The magnitude. -/
  abs : α → α
  /-- The power `pow a b` of a base `a` to a real exponent `b`. -/
  pow : α → α → α
  /-- The nearest integer, a half going away from zero. -/
  round : α → α
  /-- The integer that an integral number stands for. -/
  toInt : α → Int
  /-- The result of an operation that has none. -/
  nan : α
  /-- The order can be tested. -/
  decidableLE : DecidableLE α
  /-- The strict order can be tested. -/
  decidableLT : DecidableLT α

namespace Scalar

variable {α : Type} [Scalar α]

instance : DecidableLE α := decidableLE

instance : DecidableLT α := decidableLT

/-- The value is not a number: it is not even below itself. -/
def IsNaN (a : α) : Prop := ¬a ≤ a

instance (a : α) : Decidable (IsNaN a) := inferInstanceAs (Decidable (¬a ≤ a))

/-- The value is a number with a magnitude: taking it from itself leaves a number. -/
def IsFinite (a : α) : Prop := ¬IsNaN (a - a)

instance (a : α) : Decidable (IsFinite a) := inferInstanceAs (Decidable (¬IsNaN (a - a)))

/-- The two values are numbers of equal size, whatever their representation. -/
def Agree (a b : α) : Prop := a ≤ b ∧ b ≤ a

instance (a b : α) : Decidable (Agree a b) := inferInstanceAs (Decidable (_ ∧ _))

/-- The lesser of two values, the other one if one is not a number, the first on a tie. -/
def minNum (a b : α) : α := if b < a then b else if IsNaN a then b else a

/-- The greater of two values, the other one if one is not a number, the first on a tie. -/
def maxNum (a b : α) : α := if a < b then b else if IsNaN a then b else a

/-- Values at most this far from zero count as zero: as a divisor, as the distance of an exponent
from an integer, and as the value of a formula on its curve. -/
def zeroTolerance : α := 1e-9

/-- Constants at most this far apart count as the same when formulas are compared. -/
def constantTolerance : α := 1e-9

/-- An integral value is even when its half is integral. -/
def IsEven (k : α) : Prop := Agree (k / 2.0) (round (k / 2.0))

instance (k : α) : Decidable (IsEven k) := inferInstanceAs (Decidable (Agree _ _))

end Scalar

end ImplicitPlot
