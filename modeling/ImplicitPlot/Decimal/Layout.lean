import ImplicitPlot.Decimal.Shortest

/-!
# The text of a number

Numbers are written with the shortest digits that read back. The plain layout is always
positional, and writes an integer without a point. The marked layout always shows that a number is
not an integer type: it has a point or an exponent, and the exponent is used for magnitudes from
`10 ^ 16` on and below `10 ^ -4`.
-/

namespace ImplicitPlot.Decimal

/-- Digits and the place of the point: the number is `0.d₁d₂… · 10 ^ point`, without zeros at
either end of the digits. -/
structure Significant where
  digits : List Char
  point : Int
deriving DecidableEq, Repr

/-- The significant digits of a scaled number. -/
def Scaled.significant (s : Scaled) : Significant :=
  let ds := Nat.toDigits 10 s.digits
  ⟨(ds.reverse.dropWhile (· == '0')).reverse, ds.length + s.exponent⟩

namespace Significant

/-- Digits before and after the point, with zeros up to the point. -/
def positional (s : Significant) : String :=
  if s.point ≤ 0 then
    "0." ++ String.ofList (List.replicate (-s.point).toNat '0' ++ s.digits)
  else
    let whole := s.point.toNat
    if s.digits.length ≤ whole then
      String.ofList (s.digits ++ List.replicate (whole - s.digits.length) '0')
    else
      String.ofList (s.digits.take whole) ++ "." ++ String.ofList (s.digits.drop whole)

/-- The number is an integer. -/
def isIntegral (s : Significant) : Bool := (s.digits.length : Int) ≤ s.point

/-- One digit before the point, and a power of ten. -/
def scientific (s : Significant) : String :=
  let fraction := s.digits.drop 1
  String.ofList (s.digits.take 1) ++
    (if fraction.isEmpty then "" else "." ++ String.ofList fraction) ++
    "e" ++ toString (s.point - 1)

/-- Positional, with `.0` after an integer, or scientific from `10 ^ 16` on and below
`10 ^ -4`. -/
def marked (s : Significant) : String :=
  if s.point ≤ -4 || 16 < s.point then s.scientific
  else if s.isIntegral then s.positional ++ ".0"
  else s.positional

end Significant

/-- Writes a number, given the texts of zero and of a positive finite number. A zero keeps its
sign, and what is not a number has none. -/
def layOut (zero : String) (positive : Significant → String) (x : Float) : String :=
  if x.isNaN then "NaN"
  else
    let sign := if x.toBits.toNat < Nat.pow 2 63 then "" else "-"
    let magnitude := x.abs
    if magnitude == 0 then sign ++ zero
    else if magnitude.isInf then sign ++ "inf"
    else sign ++ positive (Binary.ofBits magnitude.toBits).shortest.significant

/-- The plain text of a number. -/
def text (x : Float) : String := layOut "0" Significant.positional x

/-- The text of a number with its kind marked. -/
def markedText (x : Float) : String := layOut "0.0" Significant.marked x

end ImplicitPlot.Decimal
