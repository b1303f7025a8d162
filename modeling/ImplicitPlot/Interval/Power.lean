import ImplicitPlot.Interval.Arithmetic

/-!
# Interval powers

A power is computed by the sign of its base. A base on both sides of zero gives the range from
zero to the greatest power of a magnitude, unless the exponent is one odd integer, which keeps
signs. A base that is nowhere negative takes the extremes over the four corners. Any other base is
nowhere positive, and has a power only if the exponent is one integer.
-/

namespace ImplicitPlot.Interval

variable {α : Type} [Scalar α]

open Scalar

/-- The power of a base with values on both sides of zero to an exponent that is nowhere
negative. -/
def powStraddling (a e : Interval α) : Except (Fault α) (Interval α) :=
  let magnitudes : Except (Fault α) (Interval α) :=
    let m := maxNum a.upper (-a.lower)
    ofBounds 0 (maxNum (pow m e.lower) (pow m e.upper))
  match e.asInteger? with
  | some k => if IsEven k then magnitudes else ofBounds (pow a.lower k) (pow a.upper k)
  | none => magnitudes

/-- The power of a base that is nowhere positive: an even power turns the order of the values
around. -/
def powNonpositive (a e : Interval α) : Except (Fault α) (Interval α) :=
  match e.asInteger? with
  | none => .error .nonIntegerExponent
  | some k =>
    let p := pow (if IsEven k then a.upper else a.lower) k
    let q := pow (if IsEven k then a.lower else a.upper) k
    ofBounds (minNum p q) (maxNum p q)

/-- The powers of a value to a value. A base that touches zero exactly must not meet a negative
exponent. -/
def pow (a e : Interval α) : Except (Fault α) (Interval α) :=
  if a.HasNaN ∨ e.HasNaN then .ok undefined
  else if e.lower < 0 ∧ a.Contains 0 then .error .divisionByZero
  else if a.lower < 0 ∧ 0 < a.upper then powStraddling a e
  else if 0 ≤ a.lower then overCorners Scalar.pow a e
  else powNonpositive a e

end ImplicitPlot.Interval
