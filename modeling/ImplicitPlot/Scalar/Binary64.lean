import ImplicitPlot.Scalar

/-!
# Binary64 scalars

The numbers of the running plotter. Every operation but the power is computed from the four basic
ones and from bit patterns, so that its value on given numbers can be worked out in a proof. The
power is a parameter of `arithmetic`: the plotter takes the platform's, and a statement that
depends on powers can say what it needs of them.
-/

namespace ImplicitPlot

namespace Binary64

/-- The number from which on every number is an integer. -/
def integralFrom : Float := 4503599627370496

/-- Drops the fraction of a magnitude below `integralFrom`, a half going to the even neighbour:
the sum has no bits left for a fraction. -/
def roundEven (a : Float) : Float := (a + integralFrom) - integralFrom

/-- The nearest integer to a magnitude, a half going up. -/
def roundMagnitude (a : Float) : Float :=
  if a < integralFrom then
    let r := roundEven a
    if r + 0.5 ≤ a then r + 1 else r
  else a

/-- The nearest integer, a half going away from zero; the sign is kept, also that of a zero. -/
def round (x : Float) : Float :=
  if x < 0 then -roundMagnitude (-x) else if 0 < x then roundMagnitude x else x

/-- The integer part of a magnitude, as far as sixty-four bits reach. -/
def toInt (x : Float) : Int :=
  if x < 0 then -((-x).toUInt64.toNat : Int) else x.toUInt64.toNat

/-- Not a number. -/
def nan : Float := 0.0 / 0.0

/-- Positive infinity. -/
def infinity : Float := 1.0 / 0.0

/-- Binary64 arithmetic with the given power. -/
@[reducible] def arithmetic (pow : Float → Float → Float) : Scalar Float where
  zero := 0
  one := 1
  natCast := Float.ofNat
  abs := Float.abs
  pow := pow
  round := round
  toInt := toInt
  nan := nan
  decidableLE := inferInstance
  decidableLT := inferInstance

end Binary64

instance : Scalar Float := Binary64.arithmetic Float.pow

end ImplicitPlot
