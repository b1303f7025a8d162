import ImplicitPlot.Decimal.Literal
import ImplicitPlot.Text.Blank
import ImplicitPlot.Variable

/-!
# Tokens

A formula's text as a list of tokens, each with the place in the text where it starts. Places are
counted in UTF-8 bytes, as they are in messages. A number takes as many characters as it can; every
other token is one character.
-/

namespace ImplicitPlot

/-- What a reader of formulas may miss. -/
inductive Expectation
  | number
  | token
  | closeParen
  | closeBar
  | primary
  | operatorOrEnd
  | lessNesting
deriving DecidableEq, Repr

/-- A formula cannot be read past a position, counted in bytes. -/
structure SyntaxError where
  position : Nat
  expected : Expectation
deriving DecidableEq, Repr

/-- The smallest meaningful part of a formula. -/
inductive Token (α : Type)
  | number (value : α)
  | letter (v : Variable)
  | plus
  | minus
  | star
  | slash
  | caret
  | openParen
  | closeParen
  | bar
deriving DecidableEq, Repr

namespace Token

/-- An operand may start here without a sign; next to another factor it is multiplied. -/
def startsPrimary {α : Type} : Token α → Bool
  | number _ | letter _ | openParen | bar => true
  | _ => false

/-- The token that a single character spells. -/
def ofChar? {α : Type} (c : Char) : Option (Token α) :=
  match c with
  | '+' => some plus
  | '-' => some minus
  | '*' => some star
  | '/' => some slash
  | '^' => some caret
  | '(' => some openParen
  | ')' => some closeParen
  | '|' => some bar
  | c => (Variable.ofChar? c).map letter

end Token

/-- A token, the byte at which it starts, and the number of its bytes. -/
structure Lexeme where
  position : Nat
  length : Nat
  token : Token Float
deriving DecidableEq, Repr

namespace Lexeme

/-- The token at the front of a text that starts with the given character, and the number of its
characters, all of which are ASCII. -/
def scan (c : Char) (cs : List Char) : Except Expectation (Token Float × Nat) :=
  if c.isDigit || c = '.' then
    match Decimal.Literal.scan (c :: cs) with
    | some (l, _) => .ok (.number l.value, l.text.length)
    | none => .error .number
  else
    match Token.ofChar? c with
    | some t => .ok (t, 1)
    | none => .error .token

/-- The lexemes of a text of which the first `skip` characters belong to a token already taken, and
the first one stands at `position`. -/
def listFrom (position skip : Nat) : List Char → Except SyntaxError (List Lexeme)
  | [] => .ok []
  | c :: cs =>
    match skip with
    | skip + 1 => listFrom (position + c.utf8Size) skip cs
    | 0 =>
      if Text.isAsciiBlank c then listFrom (position + c.utf8Size) 0 cs
      else
        match scan c cs with
        | .error expected => .error ⟨position, expected⟩
        | .ok (token, length) => do
          let rest ← listFrom (position + c.utf8Size) (length - 1) cs
          return ⟨position, length, token⟩ :: rest

/-- The lexemes of a text. -/
def list (text : String) : Except SyntaxError (List Lexeme) := listFrom 0 0 text.toList

end Lexeme

end ImplicitPlot
