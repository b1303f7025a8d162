import ImplicitPlot.Formula.Parser

/-!
# Readings on record

The rules of the parser hand down a budget, which cannot get out of balance. Here they are routines
with a state: the tokens that are left, and a counter of the factors under way, which is raised when
a factor starts and lowered when it ends, however it ends. Where a bar is tried as the start of a
factor, the tokens are given back if there is none.

Nothing of what happens is lost. The state keeps a record of all moments, with the counter and the
calls under way at each, also of what has been tried and given up. The record and the calls are only
written; no routine looks at them. The limits are a parameter, so that a reading may go further than
the parser's does.
-/

namespace ImplicitPlot

/-- What bounds the reading of a formula. -/
structure Limits where
  /-- The greatest number of factors inside each other. -/
  nesting : Nat
  /-- The greatest height of a tree. -/
  height : Nat

/-- The limits of the parser. -/
def Limits.parser : Limits := ⟨maxNesting, maxHeight⟩

/-- A routine that reads what a symbol of the grammar derives. -/
inductive Routine
  | expr
  | term
  | factor
  | power
  | signed
  | primary
deriving DecidableEq

/-- A call of a routine, with the counter and the number of tokens left at its start. -/
structure Call where
  routine : Routine
  nesting : Nat
  left : Nat

/-- The number of calls that read a factor. -/
def factorCalls (calls : List Call) : Nat := calls.countP (·.routine = .factor)

/-- What happens at a moment of a reading. -/
inductive Action (α : Type)
  /-- A factor is counted. -/
  | count
  /-- A token is taken. -/
  | take
  /-- Tokens are given back. -/
  | giveBack
  /-- A node is made. -/
  | make (a : Node α)
  /-- Something is missed, or too deep. -/
  | fail
  /-- A call ends, with success or with a failure. -/
  | finish (call : Call) (succeeded : Bool)

/-- A moment of a reading: what happens, and the state in which it leaves the reader. -/
structure Moment (α : Type) where
  /-- The counter. -/
  nesting : Nat
  /-- The calls under way, the latest first. -/
  calls : List Call
  /-- The number of tokens left. -/
  left : Nat
  action : Action α

/-- The state of a reader. -/
structure ReaderState (α : Type) where
  /-- The tokens that are left. -/
  rest : List (Token α)
  /-- The counter. -/
  nesting : Nat
  /-- The calls under way, the latest first. -/
  calls : List Call
  /-- All moments so far, the latest first. -/
  record : List (Moment α)

/-- A computation that reads tokens. A failure leaves the state as it is at that point. -/
def Reading (α β : Type) := ReaderState α → Except Failure β × ReaderState α

variable {α β γ : Type}

namespace ReaderState

/-- Before anything is read. -/
def initial (ts : List (Token α)) : ReaderState α := ⟨ts, 0, [], []⟩

/-- The state, with one more moment on record. -/
def note (s : ReaderState α) (action : Action α) : ReaderState α :=
  { s with record := ⟨s.nesting, s.calls, s.rest.length, action⟩ :: s.record }

end ReaderState

namespace Reading

instance : Monad (Reading α) where
  pure b := fun s ↦ (.ok b, s)
  bind reading next := fun s ↦
    match reading s with
    | (.ok b, s) => next b s
    | (.error f, s) => (.error f, s)

theorem bind_of_ok {reading : Reading α β} {next : β → Reading α γ} {s s' : ReaderState α} {b : β}
    (h : reading s = (.ok b, s')) : (reading >>= next) s = next b s' := by
  change (match reading s with | (.ok b, s) => next b s | (.error f, s) => (.error f, s)) = _
  rw [h]

theorem bind_of_error {reading : Reading α β} {next : β → Reading α γ} {s s' : ReaderState α}
    {f : Failure} (h : reading s = (.error f, s')) : (reading >>= next) s = (.error f, s') := by
  change (match reading s with | (.ok b, s) => next b s | (.error f, s) => (.error f, s)) = _
  rw [h]

/-! ## Steps -/

/-- The next token. -/
def peek : Reading α (Option (Token α)) := fun s ↦ (.ok s.rest.head?, s)

/-- The number of tokens left. -/
def left : Reading α Nat := fun s ↦ (.ok s.rest.length, s)

/-- The counter of factors. -/
def nesting : Reading α Nat := fun s ↦ (.ok s.nesting, s)

/-- Takes a token. -/
def take : Reading α Unit := fun s ↦ (.ok (), { s with rest := s.rest.tail }.note .take)

/-- Stops before the next token. -/
def fail (expected : Expectation) : Reading α β := fun s ↦
  (.error ⟨s.rest.length, expected⟩, s.note .fail)

/-- Makes a tree of one node. -/
def leaf (e : Expr α) : Reading α (Node α) := fun s ↦ (.ok (.leaf e), s.note (.make (.leaf e)))

/-- Makes a node of the given height, which must be within the limit. -/
def make (limits : Limits) (e : Expr α) (height : Nat) : Reading α (Node α) := fun s ↦
  if limits.height < height then fail .lessNesting s
  else (.ok ⟨e, height⟩, s.note (.make ⟨e, height⟩))

/-- Calls a routine. -/
def call (routine : Routine) (body : Reading α β) : Reading α β := fun s ↦
  let start : Call := ⟨routine, s.nesting, s.rest.length⟩
  match body { s with calls := start :: s.calls } with
  | (result, s) => (result, { s with calls := s.calls.tail }.note (.finish start result.isOk))

/-- Refuses to read a factor. The call ends at once, and has not been under way. -/
def refuse : Reading α β := fun s ↦
  (.error ⟨s.rest.length, .lessNesting⟩,
    (s.note .fail).note (.finish ⟨.factor, s.nesting, s.rest.length⟩ false))

/-- Counts a factor while it is read. -/
def counted (body : Reading α β) : Reading α β := fun s ↦
  match body ({ s with nesting := s.nesting + 1 }.note .count) with
  | (result, s) => (result, { s with nesting := s.nesting - 1 })

/-- Gives the tokens back if reading fails, other than at a limit. -/
def attempt (reading : Reading α β) : Reading α (Option β) := fun s ↦
  match reading s with
  | (.ok b, s) => (.ok (some b), s)
  | (.error f, s') =>
    if f.expected = .lessNesting then (.error f, s')
    else (.ok none, { s' with rest := s.rest }.note .giveBack)

/-! ## Routines -/

variable (limits : Limits)

/-- Joins a node with one that is read next. -/
def andThen (reading : Reading α (Node α)) (op : BinaryOp) (a : Node α) : Reading α (Node α) := do
  let b ← reading
  make limits (.binary op a.expr b.expr) (1 + max a.height b.height)

/-- The further factors of a term. -/
def factors (factor : Reading α (Node α)) : Nat → Node α → Reading α (Node α)
  | 0, a => pure a
  | fuel + 1, a => do
    match ← peek with
    | some .star =>
      take
      let a ← andThen limits factor .mul a
      factors factor fuel a
    | some .slash =>
      take
      let a ← andThen limits factor .div a
      factors factor fuel a
    | some .bar =>
      match ← attempt factor with
      | some b =>
        let a ← make limits (.binary .mul a.expr b.expr) (1 + max a.height b.height)
        factors factor fuel a
      | none => pure a
    | some t =>
      if t.startsPrimary then
        let a ← andThen limits factor .mul a
        factors factor fuel a
      else pure a
    | none => pure a

/-- A product of factors. -/
def term (factor : Reading α (Node α)) : Reading α (Node α) := call .term do
  let a ← factor
  factors limits factor (← left) a

/-- The further terms of a sum. -/
def terms (factor : Reading α (Node α)) : Nat → Node α → Reading α (Node α)
  | 0, a => pure a
  | fuel + 1, a => do
    match ← peek with
    | some .plus =>
      take
      let a ← andThen limits (term limits factor) .add a
      terms factor fuel a
    | some .minus =>
      take
      let a ← andThen limits (term limits factor) .sub a
      terms factor fuel a
    | _ => pure a

/-- A sum of terms. -/
def expr (factor : Reading α (Node α)) : Reading α (Node α) := call .expr do
  let a ← term limits factor
  terms limits factor (← left) a

/-- The end of a sum in parentheses. -/
def endParens (a : Node α) : Reading α (Node α) := do
  match ← peek with
  | some .closeParen =>
    take
    pure a
  | _ => fail .closeParen

/-- The end of a sum between bars. -/
def endBars (a : Node α) : Reading α (Node α) := do
  match ← peek with
  | some .bar =>
    take
    make limits (.unary .abs a.expr) (1 + a.height)
  | _ => fail .closeBar

/-- An operand without a sign. -/
def primary (factor : Reading α (Node α)) : Reading α (Node α) := call .primary do
  match ← peek with
  | some .openParen =>
    take
    let a ← expr limits factor
    endParens a
  | some .bar =>
    take
    let a ← expr limits factor
    endBars limits a
  | some (.letter v) =>
    take
    leaf (.var v)
  | some (.number c) =>
    take
    leaf (.const c)
  | _ => fail .primary

/-- An operand, with or without a sign. -/
def signed (factor : Reading α (Node α)) : Reading α (Node α) := call .signed do
  match ← peek with
  | some .minus =>
    take
    let a ← primary limits factor
    make limits (.unary .neg a.expr) (1 + a.height)
  | _ => primary limits factor

/-- What may follow an operand. -/
def exponent (factor : Reading α (Node α)) (a : Node α) : Reading α (Node α) := do
  match ← peek with
  | some .caret =>
    take
    andThen limits factor .pow a
  | _ => pure a

/-- An operand and its exponent, if there is one. -/
def power (factor : Reading α (Node α)) : Reading α (Node α) := call .power do
  let a ← signed limits factor
  exponent limits factor a

/-- A factor, unless the counter is at its limit. The first argument bounds the recursion, and the
counter comes to its limit before the recursion comes to its end. -/
def factor : Nat → Reading α (Node α)
  | 0 => refuse
  | fuel + 1 => do
    if limits.nesting ≤ (← nesting) then refuse
    else call .factor (counted (power limits (factor fuel)))

/-- The end of a formula. -/
def endFormula (a : Node α) : Reading α (Node α) := do
  match ← peek with
  | none => pure a
  | some _ => fail .operatorOrEnd

/-- A formula that takes up all tokens. -/
def formula : Reading α (Node α) := do
  let a ← expr limits (factor limits (limits.nesting + 1))
  endFormula a

end Reading

end ImplicitPlot
