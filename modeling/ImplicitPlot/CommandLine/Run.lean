import ImplicitPlot.CommandLine.Invocation
import ImplicitPlot.Machine.Listing
import ImplicitPlot.Message
import ImplicitPlot.Script

/-!
# Running a command line

What is printed, and the exit code. A command line that cannot be read ends the program first; then
the script is read and compiled; then the command is carried out.
-/

namespace ImplicitPlot.CommandLine

/-- The reason why a script has no text. -/
inductive FileError
  | missing
  | notText
deriving DecidableEq, Repr

/-- The wording of a file's fault. -/
def FileError.message : FileError → String
  | .missing => "No such file or directory (os error 2)"
  | .notText => "stream did not contain valid UTF-8"

/-- The reason why a command is not carried out. -/
inductive RunError
  | file (e : FileError)
  | syntaxError (e : SyntaxError)
  | fault (f : Fault Float)
  | render (e : RenderError Float)
  | text (e : Bitmap.TextError)
  /-- The region is given by the wrong number of numbers. -/
  | regionNumbers (count : Nat)
deriving DecidableEq, Repr

/-- The wording of a failure, with the failure that it goes back to. -/
def RunError.message : RunError → String
  | .file e => "io error: " ++ e.message ++ "\n\nCaused by:\n    " ++ e.message
  | .syntaxError e => e.message
  | .fault f => f.message
  | .render e => e.message
  | .text e => e.message
  | .regionNumbers count => "expected four region values, got " ++ toString count

/-- What a run leaves. -/
structure Outcome where
  code : Nat
  output : String
  errorOutput : String
deriving DecidableEq, Repr

/-- The value of a program over a rectangle, and whether it touches zero. -/
def evaluate (program : Program Float) (x y : Interval Float) : Except RunError String :=
  match program.executeOver x y program.newContext with
  | .ok a _ =>
    .ok (a.text ++ "\ncontains zero: " ++ (if a.IsZero then "true" else "false") ++ "\n")
  | .error f _ => .error (.fault f)

/-- The region to draw: the one that is asked for, or the script's. -/
def RenderOptions.regionOver (o : RenderOptions) (script : Script) :
    Except RunError (Region Float) :=
  match o.region with
  | none => .ok script.region
  | some [x1, y1, x2, y2] => .ok (.ofCorners .comparing ⟨x1, y1⟩ ⟨x2, y2⟩)
  | some numbers => .error (.regionNumbers numbers.length)

/-- The picture of a program, as far as it is to be printed. -/
def draw (o : RenderOptions) (script : Script) (program : Program Float) :
    Except RunError String := do
  let region ← o.regionOver script
  if o.repetitions = 0 then return ""
  let view : View Float := ⟨region, .square o.side, o.yAxis⟩
  let image ← (render .ample program ⟨view, o.workers⟩).mapError RunError.render
  if o.ascii then image.toAscii.mapError RunError.text else return ""

/-- What a command prints. -/
def Invocation.output (i : Invocation) (text : Except FileError String) :
    Except RunError String := do
  let text ← text.mapError RunError.file
  let script := Script.ofText .comparing text
  let program ← (script.program (!i.naive)).mapError RunError.syntaxError
  match i.command with
  | .dump => return program.listing
  | .evaluate x y => evaluate program x y
  | .render o => draw o script program

/-- Carries out an invocation on a script that has the given text. -/
def Invocation.run (i : Invocation) (text : Except FileError String) : Outcome :=
  match i.output text with
  | .ok output => ⟨0, output, ""⟩
  | .error f => ⟨1, "", "Error: " ++ f.message ++ "\n"⟩

/-- The outcome of a command line that cannot be read. -/
def Outcome.usage : Outcome :=
  ⟨2, "", "usage: -i FILE [--naive] (dump | eval X Y | render [OPTIONS])\n"⟩

/-- Carries out a command line. -/
def run (words : List String) (text : Except FileError String) : Outcome :=
  match Invocation.ofWords words with
  | some i => i.run text
  | none => .usage

end ImplicitPlot.CommandLine
