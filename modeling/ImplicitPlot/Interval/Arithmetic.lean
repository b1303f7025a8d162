import ImplicitPlot.Interval

/-!
# Interval arithmetic

Each operation returns an interval around all results that the operation has on values of its
operands. Sums, differences and magnitudes compute each bound from one pair of bounds; products,
quotients and powers take the extremes over the four pairs (`overCorners`).
-/

namespace ImplicitPlot.Interval

variable {α : Type} [Scalar α]

open Scalar

/-- The negated values. -/
def neg (a : Interval α) : Except (Fault α) (Interval α) := ofBounds (-a.upper) (-a.lower)

/-- The magnitudes of the values. -/
def abs (a : Interval α) : Except (Fault α) (Interval α) :=
  if a.lower < 0 then
    if 0 < a.upper then checked 0 (maxNum a.upper (-a.lower)) else checked (-a.upper) (-a.lower)
  else .ok a

/-- The sums of two values. -/
def add (a b : Interval α) : Except (Fault α) (Interval α) :=
  ofBounds (a.lower + b.lower) (a.upper + b.upper)

/-- The differences of two values. -/
def sub (a b : Interval α) : Except (Fault α) (Interval α) :=
  ofBounds (a.lower - b.upper) (a.upper - b.lower)

/-- The extremes of an operation over the four pairs of bounds; there are no values if one of the
four results is not a number. -/
def overCorners (f : α → α → α) (a b : Interval α) : Except (Fault α) (Interval α) :=
  let p := f a.lower b.lower
  let q := f a.lower b.upper
  let r := f a.upper b.lower
  let s := f a.upper b.upper
  if IsNaN p ∨ IsNaN q ∨ IsNaN r ∨ IsNaN s then .ok undefined
  else checked (minNum (minNum (minNum p q) r) s) (maxNum (maxNum (maxNum p q) r) s)

/-- The products of two values. -/
def mul (a b : Interval α) : Except (Fault α) (Interval α) :=
  if a.HasNaN ∨ b.HasNaN then .ok undefined else overCorners (· * ·) a b

/-- The quotients of two values; the divisor must stay clear of zero. -/
def div (a b : Interval α) : Except (Fault α) (Interval α) :=
  if b.IsZero then .error .divisionByZero
  else if a.HasNaN ∨ b.HasNaN then .ok undefined
  else overCorners (· / ·) a b

end ImplicitPlot.Interval
