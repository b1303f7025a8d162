import ImplicitPlot.CommandLine.Arguments
import ImplicitPlot.Decimal.Literal
import ImplicitPlot.Interval
import ImplicitPlot.Plot.View
import ImplicitPlot.Plot.WorkerCount
import ImplicitPlot.Scalar.Binary64
import ImplicitPlot.Text.Blank
import ImplicitPlot.Text.Lines

/-!
# Invocations

What a command line asks for: a script, whether its formula is compiled as it is written, and one
of three commands. A command line that asks for nothing in particular has no invocation.
-/

namespace ImplicitPlot.CommandLine

/-- How to draw a picture. -/
structure RenderOptions where
  ascii : Bool
  workers : WorkerCount
  repetitions : Nat
  side : UInt32
  yAxis : YAxis
  /-- The numbers that are given for the region in place of the script's. -/
  region : Option (List Float)
deriving Repr

/-- What to do with a script. -/
inductive Command
  | dump
  | evaluate (x y : Interval Float)
  | render (options : RenderOptions)
deriving Repr

/-- A command on a script. -/
structure Invocation where
  input : String
  naive : Bool
  command : Command
deriving Repr

/-! ## Values -/

/-- Reads a natural number below a limit; it may have a plus sign. -/
def readNat (limit : Nat) (text : String) : Option Nat :=
  let digits := match text.toList with | '+' :: ds => ds | ds => ds
  if digits.isEmpty || !digits.all Char.isDigit then none
  else
    let n := Decimal.natOfDigits digits
    if n < limit then some n else none

/-- Reads the side of a square image; zero may have a minus sign. -/
def readSide (text : String) : Option UInt32 :=
  match text.toList with
  | '-' :: d :: ds => if (d :: ds).all (· = '0') then some 0 else none
  | _ => (readNat UInt32.size text).map UInt32.ofNat

/-- Reads an interval: a number, or two numbers in any order with a comma between them. Blanks
around a number do not count. -/
def readInterval (text : String) : Option (Interval Float) :=
  match (Text.fields ',' text.toList).map (Decimal.read ∘ Text.trim) with
  | [some v] => some (.point v)
  | [some a, some b] =>
    if Scalar.IsNaN a ∨ Scalar.IsNaN b then none
    else some ⟨Scalar.minNum a b, Scalar.maxNum a b⟩
  | _ => none

/-- Reads numbers with commas between them. -/
def readNumbers (text : String) : Option (List Float) :=
  (Text.fields ',' text.toList).mapM Decimal.read

/-! ## Options -/

/-- The script. -/
def inputOption : OptionSpec := { long := some "input", short := some 'i', arity := .oneValue }

/-- Compiles the formula as it is written. -/
def naiveOption : OptionSpec := { long := some "naive", short := none, arity := .nothing }

/-- Prints the picture as text. -/
def asciiOption : OptionSpec := { long := some "ascii", short := none, arity := .nothing }

/-- The number of workers. -/
def threadsOption : OptionSpec := { long := some "threads", short := some 't', arity := .oneValue }

/-- How often the picture is drawn. -/
def repetitionsOption : OptionSpec := { long := none, short := some 'N', arity := .oneValue }

/-- The side of the picture. -/
def sizeOption : OptionSpec := { long := some "size", short := some 's', arity := .oneValue }

/-- Two opposite corners of the region. -/
def regionOption : OptionSpec :=
  { long := some "region", short := none, arity := .words 4, repeats := true }

/-- Puts the first row at the bottom. -/
def yDownOption : OptionSpec := { long := some "y-down", short := none, arity := .nothing }

/-- What may stand in front of a command. -/
def frontSpec : CommandSpec := { options := [inputOption, naiveOption] }

/-- A command without options. -/
def dumpSpec : CommandSpec := { options := [] }

/-- A command whose operands may be negative numbers. -/
def evaluateSpec : CommandSpec := { options := [], dashedOperands := true }

/-- The command that draws. -/
def renderSpec : CommandSpec :=
  { options := [asciiOption, threadsOption, repetitionsOption, sizeOption, regionOption,
      yDownOption] }

/-- The value of an option, or a default if the option is not given. -/
def Sorted.value {β : Type} (s : Sorted) (o : OptionSpec) (read : String → Option β) (default : β) :
    Option β :=
  match s.values o with
  | [] => some default
  | [text] => read text
  | _ => none

/-! ## Commands -/

/-- How to draw, by the options that are given. -/
def RenderOptions.ofSorted (s : Sorted) : Option RenderOptions := do
  let workers ← s.value threadsOption
    (fun text ↦ readNat UInt64.size text >>= WorkerCount.ofNat?) .one
  let repetitions ← s.value repetitionsOption (readNat UInt64.size) 1
  let side ← s.value sizeOption readSide 256
  let numbers ← (s.values regionOption).mapM readNumbers
  return {
    ascii := s.has asciiOption
    workers
    repetitions
    side
    yAxis := if s.has yDownOption then .down else .up
    region := if s.has regionOption then some numbers.flatten else none }

/-- Reads a command and its arguments. -/
def Command.ofWords : List String → Option Command
  | "dump" :: rest => do
    let s ← dumpSpec.sort rest
    if s.operands.isEmpty then some .dump else none
  | "eval" :: rest => do
    match (← evaluateSpec.sort rest).operands with
    | [x, y] => return .evaluate (← readInterval x) (← readInterval y)
    | _ => none
  | "render" :: rest => do
    let s ← renderSpec.sort rest
    if s.operands.isEmpty then (RenderOptions.ofSorted s).map .render else none
  | _ => none

/-- Reads a command line. -/
def Invocation.ofWords (words : List String) : Option Invocation := do
  let front ← frontSpec.sortFront words
  let input ← (front.values inputOption)[0]?
  let command ← Command.ofWords front.operands
  return ⟨input, front.has naiveOption, command⟩

end ImplicitPlot.CommandLine
