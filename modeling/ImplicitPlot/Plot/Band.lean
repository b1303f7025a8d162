import ImplicitPlot.Plot.Word

/-!
# Bands

The rows of an image, divided among workers. Band `i` of `count` goes from row `i * height / count`
up to row `(i + 1) * height / count`, so that the bands differ by at most one row. The products are
those of sixty-four-bit words, and a product that needs more bits is refused.
-/

namespace ImplicitPlot

/-- The rows from `start` on, up to but without `stop`. -/
structure Band where
  start : Nat
  stop : Nat
deriving DecidableEq, Repr

namespace Band

/-- One of `count` bands. -/
def nth? (height count i : Nat) : Option Band := do
  let start ← Word.product? i height
  let stop ← Word.product? (i + 1) height
  return ⟨start / count, stop / count⟩

/-- The given number of bands, from band `i` on. -/
def listFrom? (height count : Nat) : Nat → Nat → Option (List Band)
  | 0, _ => some []
  | n + 1, i => do
    let band ← nth? height count i
    let rest ← listFrom? height count n (i + 1)
    return band :: rest

/-- The number of bands for an image: at least one, and no more than it has rows. -/
def clampCount (height count : Nat) : Nat := max 1 (min count (max height 1))

/-- The bands of an image of the given height. -/
def list? (height count : Nat) : Option (List Band) :=
  let count := clampCount height count
  listFrom? height count count 0

end Band

end ImplicitPlot
