import ImplicitPlot.Formula.Expr
import ImplicitPlot.Formula.Token

/-!
# Reading formulas

The grammar, in which each line binds more tightly than the one before:

    expr     := term (('+' | '-') term)*
    term     := factor (('*' | '/') factor | factor)*
    factor   := signed ('^' factor)?
    signed   := primary | '-' primary
    primary  := '(' expr ')' | '|' expr '|' | letter | number

Two factors next to each other are multiplied, but a factor with a sign is never joined that way:
the sign belongs to `expr`. A bar after a factor is tried as the start of one; if no factor can be
read there it is left to close a bar that is open.

Every way around the grammar passes through `factor`, so the nesting of factors bounds the
recursion: a factor is read with a budget, and its parts with one less. The height of the tree has
a limit, too. Each rule is a function of the tokens that are left, and returns what it read with the
tokens after it; a failure says how many tokens were left where it arose.
-/

namespace ImplicitPlot

/-- The greatest number of factors inside each other. -/
def maxNesting : Nat := 256

/-- The greatest height of a formula's tree, counted in nodes. -/
def maxHeight : Nat := 1024

/-- A formula in the making, with the height of its tree. -/
structure Node (α : Type) where
  expr : Expr α
  height : Nat
deriving DecidableEq, Repr

/-- Reading stopped before the given number of remaining tokens. -/
structure Failure where
  remaining : Nat
  expected : Expectation
deriving DecidableEq, Repr

/-- A rule of the grammar: it reads a node off the front of the tokens. -/
abbrev Rule (α : Type) := List (Token α) → Except Failure (Node α × List (Token α))

variable {α : Type} (limit : Nat)

namespace Node

/-- A tree of one node. -/
def leaf (e : Expr α) : Node α := ⟨e, 1⟩

/-- A node of the given height, which must be within the limit, in front of the tokens that are
left. -/
def limited (e : Expr α) (height : Nat) : Rule α := fun ts ↦
  if limit < height then .error ⟨ts.length, .lessNesting⟩ else .ok (⟨e, height⟩, ts)

/-- An operation on one node. -/
def unary (op : UnaryOp) (a : Node α) : Rule α := limited limit (.unary op a.expr) (1 + a.height)

/-- An operation on two nodes. -/
def binary (op : BinaryOp) (a b : Node α) : Rule α :=
  limited limit (.binary op a.expr b.expr) (1 + max a.height b.height)

end Node

namespace Rule

/-- Joins a node with one that a rule reads next. -/
def andThen (rule : Rule α) (op : BinaryOp) (a : Node α) : Rule α := fun ts ↦ do
  let (b, ts) ← rule ts
  Node.binary limit op a b ts

/-- The further factors of a term, each joined with what stands to its left. There are at most as
many as there are tokens. -/
def factors (factor : Rule α) : Nat → Node α → Rule α
  | 0, a, ts => .ok (a, ts)
  | fuel + 1, a, ts =>
    match ts with
    | .star :: rest => do
      let (a, ts) ← andThen limit factor .mul a rest
      factors factor fuel a ts
    | .slash :: rest => do
      let (a, ts) ← andThen limit factor .div a rest
      factors factor fuel a ts
    | .bar :: _ =>
      match factor ts with
      | .ok (b, rest) => do
        let (a, ts) ← Node.binary limit .mul a b rest
        factors factor fuel a ts
      | .error failure =>
        if failure.expected = .lessNesting then .error failure else .ok (a, ts)
    | t :: _ =>
      if t.startsPrimary then do
        let (a, ts) ← andThen limit factor .mul a ts
        factors factor fuel a ts
      else .ok (a, ts)
    | [] => .ok (a, ts)

/-- A product of factors. -/
def term (factor : Rule α) : Rule α := fun ts ↦ do
  let (a, ts) ← factor ts
  factors limit factor ts.length a ts

/-- The further terms of a sum, each joined with what stands to its left. There are at most as many
as there are tokens. -/
def terms (factor : Rule α) : Nat → Node α → Rule α
  | 0, a, ts => .ok (a, ts)
  | fuel + 1, a, ts =>
    match ts with
    | .plus :: rest => do
      let (a, ts) ← andThen limit (term limit factor) .add a rest
      terms factor fuel a ts
    | .minus :: rest => do
      let (a, ts) ← andThen limit (term limit factor) .sub a rest
      terms factor fuel a ts
    | _ => .ok (a, ts)

/-- A sum of terms. -/
def expr (factor : Rule α) : Rule α := fun ts ↦ do
  let (a, ts) ← term limit factor ts
  terms limit factor ts.length a ts

/-- An operand without a sign. -/
def primary (factor : Rule α) : Rule α := fun ts ↦
  match ts with
  | .openParen :: rest => do
    let (a, ts) ← expr limit factor rest
    match ts with
    | .closeParen :: ts => .ok (a, ts)
    | _ => .error ⟨ts.length, .closeParen⟩
  | .bar :: rest => do
    let (a, ts) ← expr limit factor rest
    match ts with
    | .bar :: ts => Node.unary limit .abs a ts
    | _ => .error ⟨ts.length, .closeBar⟩
  | .letter v :: ts => .ok (.leaf (.var v), ts)
  | .number c :: ts => .ok (.leaf (.const c), ts)
  | _ => .error ⟨ts.length, .primary⟩

/-- An operand, with or without a sign. -/
def signed (factor : Rule α) : Rule α := fun ts ↦
  match ts with
  | .minus :: rest => do
    let (a, ts) ← primary limit factor rest
    Node.unary limit .neg a ts
  | _ => primary limit factor ts

/-- An operand and its exponent, if there is one. -/
def power (factor : Rule α) : Rule α := fun ts ↦ do
  let (a, ts) ← signed limit factor ts
  match ts with
  | .caret :: rest => andThen limit factor .pow a rest
  | _ => .ok (a, ts)

/-- A factor that may hold at most the given number of factors inside each other, itself
included. -/
def factor : Nat → Rule α
  | 0 => fun ts ↦ .error ⟨ts.length, .lessNesting⟩
  | budget + 1 => power limit (factor budget)

end Rule

/-- Reads a formula that takes up all tokens. -/
def Expr.ofTokens (ts : List (Token α)) : Except Failure (Expr α) := do
  let (a, rest) ← Rule.expr maxHeight (Rule.factor maxHeight maxNesting) ts
  if rest.isEmpty then .ok a.expr else .error ⟨rest.length, .operatorOrEnd⟩

/-- The position of a failure: that of the token before which reading stopped, or the end of the
text. -/
def Failure.position (f : Failure) (lexemes : List Lexeme) (endOfText : Nat) : Nat :=
  match lexemes[lexemes.length - f.remaining]? with
  | some l => l.position
  | none => endOfText

/-- Reads a formula from its text. -/
def Expr.parse (text : String) : Except SyntaxError (Expr Float) := do
  let lexemes ← Lexeme.list text
  match Expr.ofTokens (lexemes.map (·.token)) with
  | .ok e => .ok e
  | .error f => .error ⟨f.position lexemes text.utf8ByteSize, f.expected⟩

end ImplicitPlot
