import ImplicitPlot.CommandLine.Run

/-!
# The program

Reads the command line and the script, and prints what they ask for.
-/

namespace ImplicitPlot

/-- The text of a file. -/
def readScript (path : String) : IO (Except CommandLine.FileError String) := do
  try
    let bytes ← IO.FS.readBinFile path
    match String.fromUTF8? bytes with
    | some text => return .ok text
    | none => return .error .notText
  catch _ => return .error .missing

end ImplicitPlot

open ImplicitPlot in
/-- Prints the outcome of the command line, and exits with its code. -/
def main (words : List String) : IO UInt32 := do
  let outcome ← match CommandLine.Invocation.ofWords words with
    | some i => i.run <$> readScript i.input
    | none => pure CommandLine.Outcome.usage
  IO.print outcome.output
  IO.eprint outcome.errorOutput
  return UInt32.ofNat outcome.code
