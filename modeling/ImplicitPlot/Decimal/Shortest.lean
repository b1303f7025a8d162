/-!
# Shortest decimals

The fewest digits from which a binary number can be read back, and of several such decimals the
one nearest to the number. A positive binary64 number is `m · 2 ^ q`; the reals that are rounded to
it form an interval around it, whose ends belong to it when `m` is even. For one digit, then two,
and so on, the two neighbours of the number on the decimal grid are tested against that interval,
in exact arithmetic on natural numbers.
-/

namespace ImplicitPlot.Decimal

/-- A positive number `significand · 2 ^ exponent`. -/
structure Binary where
  significand : Nat
  exponent : Int
deriving DecidableEq, Repr

/-- The binary number in the finite positive pattern of the given bits. -/
def Binary.ofBits (bits : UInt64) : Binary :=
  let field := (bits.toNat >>> 52) % 2048
  let fraction := bits.toNat % Nat.pow 2 52
  if field = 0 then ⟨fraction, -1074⟩ else ⟨fraction + Nat.pow 2 52, field - 1075⟩

/-- A decimal number `digits · 10 ^ exponent`. -/
structure Scaled where
  digits : Nat
  exponent : Int
deriving DecidableEq, Repr

namespace Binary

/-- The number as a quotient of natural numbers. -/
def ratio (b : Binary) : Nat × Nat :=
  (b.significand * Nat.pow 2 b.exponent.toNat, Nat.pow 2 (-b.exponent).toNat)

/-- The number of decimal digits of a natural number, none for zero. -/
def digitCount (n : Nat) : Nat := if n = 0 then 0 else (Nat.toDigits 10 n).length

/-- The exponent of the leading decimal digit. -/
def leadingExponent (b : Binary) : Int :=
  let (p, q) := b.ratio
  if q ≤ p then (digitCount (p / q) : Int) - 1 else -(digitCount ((q - 1) / p) : Int)

/-- A quarter of the unit in the last place, as a quotient whose parts are scaled by the decimal
grid of step `10 ^ k`: on the common scale the number is `4 · significand · (fst)` and the grid
point `d` is `d · (snd)`. -/
def gridScale (b : Binary) (k : Int) : Nat × Nat :=
  let q := b.exponent - 2
  (Nat.pow 2 q.toNat * Nat.pow 10 (-k).toNat, Nat.pow 2 (-q).toNat * Nat.pow 10 k.toNat)

/-- The distance, in quarters of a unit in the last place, from the number down to the end of the
interval that is rounded to it; it is halved at a power of two. -/
def gapBelow (b : Binary) : Nat :=
  if b.significand = Nat.pow 2 52 ∧ b.exponent ≠ -1074 then 1 else 2

/-- The decimal `d · 10 ^ k` is read back as the number. -/
def ReadsBack (b : Binary) (k : Int) (d : Nat) : Prop :=
  let (u, v) := b.gridScale k
  let low := (4 * b.significand - b.gapBelow) * u
  let high := (4 * b.significand + 2) * u
  if b.significand % 2 = 0 then low ≤ d * v ∧ d * v ≤ high else low < d * v ∧ d * v < high

instance (b : Binary) (k : Int) (d : Nat) : Decidable (b.ReadsBack k d) := by
  unfold ReadsBack; infer_instance

/-- The grid point at or below the number. -/
def gridFloor (b : Binary) (k : Int) : Nat :=
  let (u, v) := b.gridScale k
  4 * b.significand * u / v

/-- The upper neighbour on the grid is at most as far as the lower one. -/
def UpperIsNearer (b : Binary) (k : Int) : Prop :=
  let (u, v) := b.gridScale k
  (2 * b.gridFloor k + 1) * v ≤ 2 * (4 * b.significand * u)

instance (b : Binary) (k : Int) : Decidable (b.UpperIsNearer k) := by
  unfold UpperIsNearer; infer_instance

/-- The nearer neighbour on the grid of step `10 ^ k` that reads back, if one does. -/
def onGrid? (b : Binary) (k : Int) : Option Nat :=
  let d := b.gridFloor k
  if b.ReadsBack k d then
    if b.ReadsBack k (d + 1) ∧ b.UpperIsNearer k then some (d + 1) else some d
  else if b.ReadsBack k (d + 1) then some (d + 1)
  else none

/-- The first decimal that reads back on grids of growing fineness, from step `10 ^ k` on. -/
def shortestFrom (b : Binary) : Nat → Int → Scaled
  | 0, k => ⟨b.gridFloor k, k⟩
  | finer + 1, k =>
    match b.onGrid? k with
    | some d => ⟨d, k⟩
    | none => shortestFrom b finer (k - 1)

/-- The shortest decimal that reads back as the number; seventeen digits always suffice. -/
def shortest (b : Binary) : Scaled := b.shortestFrom 17 b.leadingExponent

end Binary

end ImplicitPlot.Decimal
