import ImplicitPlot.Scalar.Binary64

/-!
# Decimal literals

The written form of a number: digits with an optional point and an optional exponent. `scan` takes
the longest literal off the front of a text; `value` is the binary64 number nearest to it.
-/

namespace ImplicitPlot.Decimal

/-- The number that a run of digits spells. -/
def natOfDigits (ds : List Char) : Nat :=
  ds.foldl (fun n d ↦ 10 * n + (d.toNat - '0'.toNat)) 0

/-- The exponent of a literal. -/
structure Exponent where
  /-- The letter that opens the exponent. -/
  mark : Char
  /-- The sign, if one is written. -/
  sign : Option Char
  /-- At least one digit. -/
  digits : List Char
deriving DecidableEq, Repr

/-- The exponent as an integer. -/
def Exponent.value (e : Exponent) : Int :=
  if e.sign = some '-' then -(natOfDigits e.digits : Int) else natOfDigits e.digits

/-- The characters of the exponent. -/
def Exponent.text (e : Exponent) : List Char := e.mark :: (e.sign.toList ++ e.digits)

/-- A number as it is written. -/
structure Literal where
  /-- The digits before the point. -/
  whole : List Char
  /-- The digits after the point, if there is a point. -/
  fraction : Option (List Char)
  /-- The exponent, if there is one. -/
  exponent : Option Exponent
deriving DecidableEq, Repr

namespace Literal

/-- The characters of the literal. -/
def text (l : Literal) : List Char :=
  l.whole ++ (match l.fraction with | none => [] | some ds => '.' :: ds) ++
    (match l.exponent with | none => [] | some e => e.text)

/-- All digits as one number: the literal stands for this times a power of ten. -/
def significand (l : Literal) : Nat := natOfDigits (l.whole ++ l.fraction.getD [])

/-- The power of ten that scales the significand. -/
def scale (l : Literal) : Int :=
  (match l.exponent with | none => 0 | some e => e.value) - (l.fraction.getD []).length

end Literal

/-! ## Scanning -/

/-- Splits an optional sign off a text. -/
def scanSign : List Char → Option Char × List Char
  | '+' :: cs => (some '+', cs)
  | '-' :: cs => (some '-', cs)
  | cs => (none, cs)

/-- Takes an exponent off the front of a text. Without a digit there is none, and the letter is
left in place. -/
def scanExponent : List Char → Option Exponent × List Char
  | [] => (none, [])
  | c :: cs =>
    if c = 'e' ∨ c = 'E' then
      let (sign, rest) := scanSign cs
      let digits := rest.takeWhile Char.isDigit
      if digits.isEmpty then (none, c :: cs)
      else (some ⟨c, sign, digits⟩, rest.dropWhile Char.isDigit)
    else (none, c :: cs)

/-- Takes a point and the digits after it off the front of a text. -/
def scanFraction : List Char → Option (List Char) × List Char
  | '.' :: cs => (some (cs.takeWhile Char.isDigit), cs.dropWhile Char.isDigit)
  | cs => (none, cs)

/-- Takes the longest literal off the front of a text. There has to be a digit before or after the
point. -/
def Literal.scan (cs : List Char) : Option (Literal × List Char) :=
  let whole := cs.takeWhile Char.isDigit
  let (fraction, rest) := scanFraction (cs.dropWhile Char.isDigit)
  if whole.isEmpty && (fraction.getD []).isEmpty then none
  else
    let (exponent, rest) := scanExponent rest
    some (⟨whole, fraction, exponent⟩, rest)

/-! ## Values -/

/-- From this decimal exponent on every number is beyond the greatest binary64 number, and below
its negative every number is nearer to zero than to any other. -/
def exponentLimit : Int := 400

/-- The binary64 number nearest to `n · 10 ^ e`. -/
def nearest (n : Nat) (e : Int) : Float :=
  let magnitude : Int := (Nat.toDigits 10 n).length + e
  if n = 0 ∨ magnitude < -exponentLimit then 0
  else if exponentLimit < magnitude then Binary64.infinity
  else if 0 ≤ e then OfScientific.ofScientific n false e.toNat
  else OfScientific.ofScientific n true (-e).toNat

/-- The binary64 number nearest to a literal. -/
def Literal.value (l : Literal) : Float := nearest l.significand l.scale

/-! ## Whole texts -/

/-- Reads a number without a sign: a literal, or one of the words for the values that have no
digits, in any case. -/
def readMagnitude (cs : List Char) : Option Float :=
  match String.ofList (cs.map Char.toLower) with
  | "inf" => some Binary64.infinity
  | "infinity" => some Binary64.infinity
  | "nan" => some Binary64.nan
  | _ =>
    match Literal.scan cs with
    | some (l, []) => some l.value
    | _ => none

/-- Reads a number that fills a whole text. -/
def read (cs : List Char) : Option Float :=
  match scanSign cs with
  | (some '-', rest) => (readMagnitude rest).map (-·)
  | (_, rest) => readMagnitude rest

end ImplicitPlot.Decimal
