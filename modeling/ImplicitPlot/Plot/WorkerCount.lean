/-!
# Numbers of workers

How many workers draw an image: at least one.
-/

namespace ImplicitPlot

/-- A number of workers. -/
structure WorkerCount where
  count : Nat
  pos : 0 < count := by decide
deriving DecidableEq, Repr

namespace WorkerCount

/-- A single worker. -/
def one : WorkerCount := ⟨1, by decide⟩

/-- The given number of workers, unless there would be none. -/
def ofNat? (n : Nat) : Option WorkerCount := if h : 0 < n then some ⟨n, h⟩ else none

/-- A single worker is not numbered. -/
def text (w : WorkerCount) : String := if w = one then "-" else toString w.count

end WorkerCount

end ImplicitPlot
