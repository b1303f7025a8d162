/-!
# Variables

A formula may name twenty-six variables, each by one ASCII letter. The letter's place in the
alphabet is the variable's slot wherever values are kept by variable.
-/

namespace ImplicitPlot

/-- The number of variables. -/
abbrev Variable.count : Nat := 26

/-- A variable, known by its place in the alphabet. -/
structure Variable where
  index : Fin Variable.count
deriving DecidableEq, Repr

namespace Variable

/-- The variable at a place in the alphabet, if the alphabet goes that far. -/
def ofIndex? (i : Nat) : Option Variable :=
  if h : i < count then some ⟨⟨i, h⟩⟩ else none

/-- The variable that a letter of either case names. -/
def ofChar? (c : Char) : Option Variable :=
  if c.isLower then ofIndex? (c.toNat - 'a'.toNat)
  else if c.isUpper then ofIndex? (c.toNat - 'A'.toNat)
  else none

/-- The lowercase letter of a variable. -/
def letter (v : Variable) : Char := Char.ofNat ('a'.toNat + v.index)

/-- A variable is printed as its lowercase letter. -/
def text (v : Variable) : String := v.letter.toString

/-- The horizontal coordinate. -/
def x : Variable := ⟨23⟩

/-- The vertical coordinate. -/
def y : Variable := ⟨24⟩

end Variable

end ImplicitPlot
