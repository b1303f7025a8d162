/-!
# Arguments

How the words of a command line fall into options and operands. An option is a word that starts
with two dashes and has a name, or a word that starts with one dash and has letters. The value of
an option is attached (`--name=value`, `-nvalue`, `-n=value`) or is the next word; a word that
looks like an option is not taken as the value of another one. An option that has a fixed number of
values takes that many words, whatever they look like. After a word of two dashes all words are
operands.
-/

namespace ImplicitPlot.CommandLine

/-- What an option is followed by. -/
inductive Arity
  | nothing
  | oneValue
  | words (count : Nat)
deriving DecidableEq, Repr

/-- An option, by its names. -/
structure OptionSpec where
  long : Option String
  short : Option Char
  arity : Arity
  /-- The option may be given more than once. -/
  repeats : Bool := false
deriving DecidableEq, Repr

/-- What a command accepts. -/
structure CommandSpec where
  options : List OptionSpec
  /-- A word that looks like an option, but is none, is an operand. -/
  dashedOperands : Bool := false
deriving DecidableEq, Repr

/-- An option that is given, with its values. -/
structure Given where
  option : OptionSpec
  values : List String
deriving DecidableEq, Repr

/-- The options and operands among the words of a command line. -/
structure Sorted where
  given : List Given
  operands : List String
deriving DecidableEq, Repr

namespace Sorted

/-- Puts an option in front. -/
def withGiven (g : Given) (s : Sorted) : Sorted := { s with given := g :: s.given }

/-- Puts an operand in front. -/
def withOperand (word : String) (s : Sorted) : Sorted := { s with operands := word :: s.operands }

/-- The times that an option is given. -/
def occurrences (s : Sorted) (o : OptionSpec) : List Given := s.given.filter (·.option = o)

/-- The option is given. -/
def has (s : Sorted) (o : OptionSpec) : Bool := !(s.occurrences o).isEmpty

/-- The values of an option, over all times that it is given. -/
def values (s : Sorted) (o : OptionSpec) : List String := (s.occurrences o).flatMap (·.values)

/-- No option is given twice that may be given only once. -/
def noneRepeated (s : Sorted) : Bool :=
  s.given.all fun g ↦ g.option.repeats || (s.occurrences g.option).length ≤ 1

end Sorted

/-- A word that is read as options: it starts with a dash, and is more than that. -/
def isDashed (word : String) : Bool :=
  match word.toList with
  | '-' :: _ :: _ => true
  | _ => false

/-- Options that are spelled by one word; the last one may still need the given number of words. -/
structure Spelled where
  complete : List Given
  pending : Option (OptionSpec × Nat)
deriving DecidableEq, Repr

/-- The option of a long name, with an attached value or without. -/
def spellLong (spec : CommandSpec) (name : String) (attached : Option String) : Option Spelled := do
  let o ← spec.options.find? (·.long = some name)
  match o.arity, attached with
  | .nothing, none => some ⟨[⟨o, []⟩], none⟩
  | .oneValue, some value => some ⟨[⟨o, [value]⟩], none⟩
  | .oneValue, none => some ⟨[], some (o, 1)⟩
  | .words count, none => some ⟨[], some (o, count)⟩
  | _, some _ => none

/-- The options of a run of letters; the rest of the run is the value of the first that has one. -/
def spellShort (spec : CommandSpec) : List Char → Option Spelled
  | [] => some ⟨[], none⟩
  | c :: rest => do
    let o ← spec.options.find? (·.short = some c)
    match o.arity, rest with
    | .nothing, rest => do
      let s ← spellShort spec rest
      return { s with complete := ⟨o, []⟩ :: s.complete }
    | .oneValue, [] => some ⟨[], some (o, 1)⟩
    | .oneValue, '=' :: value => some ⟨[⟨o, [String.ofList value]⟩], none⟩
    | .oneValue, value => some ⟨[⟨o, [String.ofList value]⟩], none⟩
    | .words count, [] => some ⟨[], some (o, count)⟩
    | .words _, _ :: _ => none

/-- The options that a dashed word spells. -/
def spell (spec : CommandSpec) (word : String) : Option Spelled :=
  match word.toList with
  | '-' :: '-' :: rest =>
    let name := String.ofList (rest.takeWhile (· ≠ '='))
    match rest.dropWhile (· ≠ '=') with
    | [] => spellLong spec name none
    | _ :: value => spellLong spec name (some (String.ofList value))
  | _ :: letters => spellShort spec letters
  | [] => none

/-- Sorts the words of a command line. An option that still needs words has `pending` with those
that it has got so far, in reverse, and the number that it needs. The words of a command that has
`stop` end at the first operand, which is kept with what follows it. -/
def sortFrom (spec : CommandSpec) (stop : Bool)
    (pending : Option (OptionSpec × List String × Nat)) :
    List String → Option Sorted
  | [] => if pending.isSome then none else some ⟨[], []⟩
  | word :: rest =>
    match pending with
    | some (o, got, needed) =>
      if o.arity = .oneValue && isDashed word then none
      else if needed ≤ 1 then
        (sortFrom spec stop none rest).map (·.withGiven ⟨o, (word :: got).reverse⟩)
      else sortFrom spec stop (some (o, word :: got, needed - 1)) rest
    | none =>
      if word = "--" then if stop then none else some ⟨[], rest⟩
      else if isDashed word then
        match spell spec word with
        | some s =>
          (sortFrom spec stop (s.pending.map fun (o, needed) ↦ (o, [], needed)) rest).map fun r ↦
            { r with given := s.complete ++ r.given }
        | none =>
          if spec.dashedOperands then (sortFrom spec stop none rest).map (·.withOperand word)
          else none
      else if stop then some ⟨[], word :: rest⟩
      else (sortFrom spec stop none rest).map (·.withOperand word)

/-- The options and operands among words; there are none if a word is out of place. -/
def CommandSpec.sort (spec : CommandSpec) (words : List String) : Option Sorted := do
  let s ← sortFrom spec false none words
  if s.noneRepeated then some s else none

/-- The options in front of the first operand, and the words from there on. -/
def CommandSpec.sortFront (spec : CommandSpec) (words : List String) : Option Sorted := do
  let s ← sortFrom spec true none words
  if s.noneRepeated then some s else none

end ImplicitPlot.CommandLine
