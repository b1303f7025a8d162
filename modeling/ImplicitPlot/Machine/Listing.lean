import ImplicitPlot.Decimal.Layout
import ImplicitPlot.Machine.Instruction

/-!
# Program listings

The names of instructions, and the text of a program.
-/

namespace ImplicitPlot

namespace Instruction

/-- The name of the instruction for an operation on one value. -/
def unaryName : UnaryOp → String
  | .neg => "Neg"
  | .abs => "Abs"

/-- The name of the instruction for an operation on two values. -/
def binaryName : BinaryOp → String
  | .add => "Add"
  | .sub => "Sub"
  | .mul => "Mul"
  | .div => "Div"
  | .pow => "Pow"

/-- The name of an instruction, without its operand. -/
def name {α : Type} : Instruction α → String
  | pushConst _ => "PushConst"
  | pushVar _ => "PushVar"
  | unary op => unaryName op
  | binary op => binaryName op
  | dup => "Dup"
  | swap => "Swap"

/-- The instructions without an operand. -/
def plain {α : Type} : List (Instruction α) :=
  [.add, .sub, .mul, .div, .pow].map binary ++ [.neg, .abs].map unary ++ [dup, swap]

/-- The names of all instructions: those with an operand, the operations, and those that move
values. -/
def names : List String := ["PushConst", "PushVar"] ++ (plain (α := Unit)).map name

/-- The text of an instruction. -/
def text (i : Instruction Float) : String :=
  match i with
  | pushConst c => i.name ++ " " ++ Decimal.text c
  | pushVar v => i.name ++ " " ++ v.text
  | _ => i.name

end Instruction

namespace Program

/-- A number with blanks in front, up to the given width. -/
def alignRight (width n : Nat) : String :=
  let digits := toString n
  String.ofList (List.replicate (width - digits.length) ' ') ++ digits

/-- One line of a listing. -/
def line (i : Instruction Float) (index : Nat) : String :=
  alignRight 4 index ++ "  " ++ i.text ++ "\n"

/-- The text of a program: the stack that it asks for, and an instruction on each line. -/
def listing (p : Program Float) : String :=
  "; stack size " ++ toString p.stackSize ++ "\n" ++
    String.join ((p.code.zipIdx).map fun (i, index) ↦ line i index)

end Program

end ImplicitPlot
