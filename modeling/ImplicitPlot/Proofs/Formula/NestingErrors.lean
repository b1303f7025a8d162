import ImplicitPlot.Proofs.Formula.AmpleLimits
import ImplicitPlot.Proofs.Formula.Lexemes
import ImplicitPlot.Proofs.Formula.ParserCompleteness
import ImplicitPlot.Proofs.Formula.WrittenText

/-!
# Formulas that are refused for their nesting

A formula is refused for its nesting if and only if a reading of it without limits has a moment at
which more factors are under way than are allowed, or makes a node that is too high. The moments
include those of attempts: a bar that closes a magnitude is tried as an opening one first, and so a
formula may be refused that does not nest. In `|x|-|x|-|x|` and so on each attempt runs into the
next bar and starts another attempt there, so that the sum is refused from 128 terms on, although
its factors nest two deep.
-/

namespace ImplicitPlot

open Grammar

variable {α : Type}

/-- Limits not below those of the parser, and out of reach of the tokens. -/
def Limits.outOfReach (ts : List (Token α)) : Limits :=
  ⟨max maxNesting (ts.length + 1), max maxHeight ts.length⟩

theorem Limits.outOfReach_height_pos (ts : List (Token α)) : 0 < (outOfReach ts).height :=
  Nat.lt_of_lt_of_le (show 0 < maxHeight by decide) (Nat.le_max_left _ _)

/-- A moment keeps to the limits of the parser unless too many factors are under way, or a node is
made that is too high. -/
theorem Moment.Sound.not_within_iff {limits : Limits} {m : Moment α} (h : m.Sound limits) :
    ¬m.Within .parser ↔ maxNesting < factorCalls m.calls ∨
      ∃ a, m.action = .make a ∧ maxHeight < a.expr.height := by
  rw [← h.nesting_eq]
  constructor
  · intro hnot
    by_contra hkeeps
    simp only [not_or, not_exists, not_and, Nat.not_lt] at hkeeps
    exact hnot ⟨hkeeps.1, fun a ha ↦ (h.made a ha).1 ▸ hkeeps.2 a ha⟩
  · rintro (hover | ⟨a, ha, hover⟩) hwithin
    · exact Nat.not_le.mpr hover hwithin.nesting_le
    · have hle := hwithin.height_le a ha
      rw [(h.made a ha).1] at hle
      exact Nat.not_le.mpr hover hle

namespace Reading

private theorem formulaRule_ample {limits : Limits} {ts : List (Token α)}
    (hnesting : ts.length < limits.nesting) (hheight : ts.length ≤ limits.height) (left : Nat) :
    formulaRule limits ts ≠ .error ⟨left, .lessNesting⟩ := by
  intro h
  have hexpr := Rule.unhindered_expr (Rule.unhindered_factor limits.nesting) ts hnesting hheight
  rcases cases_of_bind_eq_error h with hfails | ⟨r, -, hend⟩
  · rw [hfails] at hexpr
    cases hexpr with
    | failure hdeep => exact hdeep rfl
  · rw [endRule] at hend
    split at hend <;> cases hend

/-- **The rules fail at a limit** if and only if a reading without limits goes beyond it. -/
theorem formulaRule_lessNesting_iff (ts : List (Token α)) :
    (∃ left, formulaRule .parser ts = .error ⟨left, .lessNesting⟩) ↔
      ∃ m ∈ (formula (.outOfReach ts) (.initial ts)).2.record, ¬m.Within .parser := by
  have hnesting : ts.length < (Limits.outOfReach ts).nesting := Nat.le_max_right _ _
  have hheight : ts.length ≤ (Limits.outOfReach ts).height := Nat.le_max_right _ _
  have hparser : Outcome (.outOfReach ts) .parser 1 (.initial ts) (formulaRule .parser ts)
      (formula (.outOfReach ts) (.initial ts)) :=
    outcome_formula (by decide) (Nat.le_max_left _ _) (Nat.le_max_left _ _) ts
  obtain ⟨new, hnew, -, hresult⟩ := hparser.record
  rw [hnew, ReaderState.initial, List.append_nil]
  constructor
  · rintro ⟨left, hfails⟩
    rcases hresult with ⟨-, hrule⟩ | ⟨hover, -⟩
    · have hsame := formulaRule_eq (Limits.outOfReach_height_pos ts) ts
      have hnever := formulaRule_ample hnesting hheight left
      exact absurd (hsame.trans (hrule.symm.trans hfails)) hnever
    · exact hover
  · rintro ⟨m, hm, hnot⟩
    rcases hresult with ⟨hkeeps, -⟩ | ⟨-, hfails⟩
    · exact absurd (hkeeps m hm) hnot
    · exact hfails

end Reading

namespace Expr

/-- **A formula is refused for its nesting** if and only if, in a reading of its tokens without
limits, too many factors are under way at some moment, or a node is made that is too high. This does
not happen if the formula is derived within the limits and has no bars. -/
theorem nesting_error_iff (text : String) (lexemes : List Lexeme)
    (h : Lexeme.list text = .ok lexemes) :
    let ts := lexemes.map (·.token)
    ((∃ position, parse text = .error ⟨position, .lessNesting⟩) ↔
      ∃ m ∈ (Reading.formula (.outOfReach ts) (.initial ts)).2.record,
        maxNesting < factorCalls m.calls ∨ ∃ a, m.action = .make a ∧ maxHeight < a.expr.height) ∧
    ('|' ∉ text.toList → ∀ e, Derives .expr maxNesting ts e → e.height ≤ maxHeight →
      ∀ position, parse text ≠ .error ⟨position, .lessNesting⟩) := by
  intro ts
  have hparse := parse_of_list h
  refine ⟨?_, fun hbar e hd hheight position hfails ↦ ?_⟩
  · have hsound := Reading.sound_of_mem_record (Limits.outOfReach_height_pos ts) ts
    have hrecord : (∃ m ∈ (Reading.formula (.outOfReach ts) (.initial ts)).2.record,
        ¬m.Within .parser) ↔ ∃ m ∈ (Reading.formula (.outOfReach ts) (.initial ts)).2.record,
          maxNesting < factorCalls m.calls ∨ ∃ a, m.action = .make a ∧ maxHeight < a.expr.height :=
      exists_congr fun m ↦ and_congr_right fun hm ↦ (hsound m hm).not_within_iff
    rw [← hrecord, ← Reading.formulaRule_lessNesting_iff, hparse, Reading.ofTokens_eq]
    cases Reading.formulaRule .parser ts with
    | ok r =>
      constructor <;> rintro ⟨_, ⟨⟩⟩
    | error f =>
      obtain ⟨left, expected⟩ := f
      constructor
      · rintro ⟨_, ⟨⟩⟩
        exact ⟨left, rfl⟩
      · rintro ⟨_, ⟨⟩⟩
        exact ⟨_, rfl⟩
  · have hbars := (Lexeme.madeOf_of_list h).bar_notMem hbar
    rw [hparse, ofTokens_of_derives hd hbars hheight] at hfails
    cases hfails

/-- The magnitudes are read, and their bars do not take up too many factors. -/
theorem sum_keeps_nesting :
    parse "|x|+|y|" = .ok (.binary .add (.unary .abs (.var .x)) (.unary .abs (.var .y))) ∧
    ∃ lexemes, Lexeme.list "|x|+|y|" = .ok lexemes ∧
      ¬∃ m ∈ (Reading.formula (.outOfReach (lexemes.map (·.token)))
          (.initial (lexemes.map (·.token)))).2.record,
        maxNesting < factorCalls m.calls ∨ ∃ a, m.action = .make a ∧ maxHeight < a.expr.height := by
  have hparse : parse "|x|+|y|"
      = .ok (.binary .add (.unary .abs (.var .x)) (.unary .abs (.var .y))) := rfl
  have hlexemes : Lexeme.list "|x|+|y|"
      = .ok [⟨0, 1, .bar⟩, ⟨1, 1, .letter .x⟩, ⟨2, 1, .bar⟩, ⟨3, 1, .plus⟩, ⟨4, 1, .bar⟩,
        ⟨5, 1, .letter .y⟩, ⟨6, 1, .bar⟩] :=
    rfl
  refine ⟨hparse, _, hlexemes, fun hover ↦ ?_⟩
  obtain ⟨position, hfails⟩ := (nesting_error_iff "|x|+|y|" _ hlexemes).1.mpr hover
  rw [hparse] at hfails
  cases hfails

end Expr

/-! ## A formula that does not nest -/

/-- The tokens after the first magnitude of a difference: so many more magnitudes of `x`. -/
def moreMagnitudes : Nat → List (Token α)
  | 0 => []
  | k + 1 => .minus :: .bar :: .letter .x :: .bar :: moreMagnitudes k

/-- The characters that spell these tokens. -/
def moreMagnitudesText : Nat → List Char
  | 0 => []
  | k + 1 => '-' :: '|' :: 'x' :: '|' :: moreMagnitudesText k

/-- The text of a difference of magnitudes. -/
def magnitudesText (k : Nat) : String := String.ofList ('|' :: 'x' :: '|' :: moreMagnitudesText k)

private theorem spells_moreMagnitudes (k : Nat) :
    Spells (moreMagnitudesText k) (moreMagnitudes k) := by
  induction k with
  | zero => exact .nil
  | succ k ih => exact (((ih.char rfl rfl rfl).char rfl rfl rfl).char rfl rfl rfl).char rfl rfl rfl

theorem exists_list_magnitudesText (k : Nat) :
    ∃ lexemes, Lexeme.list (magnitudesText k) = .ok lexemes ∧
      lexemes.map (·.token) = .bar :: .letter .x :: .bar :: moreMagnitudes k := by
  have hspells : Spells ('|' :: 'x' :: '|' :: moreMagnitudesText k)
      (.bar :: .letter .x :: .bar :: moreMagnitudes k) :=
    (((spells_moreMagnitudes k).char rfl rfl rfl).char rfl rfl rfl).char rfl rfl rfl
  obtain ⟨lexemes, hlist, htokens⟩ := hspells 0
  refine ⟨lexemes, ?_, htokens⟩
  rw [Lexeme.list, magnitudesText, String.toList_ofList]
  exact hlist

/-- A magnitude, with no more than two factors inside each other. -/
theorem derives_magnitude :
    Derives .term 2 [.bar, .letter .x, .bar] (.unary .abs (.var .x) : Expr α) :=
  .factor (.operand (.unsigned (.bars (.term (.factor (.operand (.unsigned (.letter 0 .x))))))))

/-- More magnitudes make the tree higher, and no factors nest deeper. -/
theorem exists_derives_magnitudes {ts : List (Token α)} {e : Expr α} (h : Derives .expr 2 ts e)
    (he : 2 ≤ e.height) (k : Nat) :
    ∃ e', Derives .expr 2 (ts ++ moreMagnitudes k) e' ∧ e'.height = e.height + k := by
  induction k generalizing ts e with
  | zero => exact ⟨e, by rwa [moreMagnitudes, List.append_nil], rfl⟩
  | succ k ih =>
    have hheight : (Expr.binary .sub e (.unary .abs (.var .x))).height = 1 + e.height := by
      rw [Expr.height, Expr.height, Expr.height, max_eq_left he]
    obtain ⟨e', hd, heq⟩ := ih (h.minus derives_magnitude) (by omega)
    refine ⟨e', by simpa [moreMagnitudes] using hd, ?_⟩
    omega

namespace Rule

variable {limit m : Nat} {factor : Rule α} {ts : List (Token α)} {f : Failure}

theorem expr_of_error (h : factor ts = .error f) : expr limit factor ts = .error f := by
  rw [expr, term, h]
  rfl

theorem primary_bar_of_error (h : expr limit factor ts = .error f) :
    primary limit factor (.bar :: ts) = .error f := by
  rw [primary, h]
  rfl

theorem factor_bar_of_error (h : expr limit (Rule.factor limit m) ts = .error f) :
    Rule.factor limit (m + 1) (.bar :: ts) = .error f := by
  rw [Rule.factor, power, signed, primary_bar_of_error h]
  · rfl
  · rintro _ ⟨⟩

private theorem factor_minus_bar_of_error (h : expr limit (Rule.factor limit m) ts = .error f) :
    Rule.factor limit (m + 1) (.minus :: .bar :: ts) = .error f := by
  rw [Rule.factor, power, signed, primary_bar_of_error h]
  rfl

/-- A bar after an operand is tried as the start of a factor, and what fails at a limit there is not
tried otherwise. -/
theorem expr_letter_bar_of_error {v : Variable} {left : Nat}
    (h : Rule.factor limit (m + 1) (.bar :: ts) = .error ⟨left, .lessNesting⟩) :
    expr limit (Rule.factor limit (m + 1)) (.letter v :: .bar :: ts)
      = .error ⟨left, .lessNesting⟩ := by
  have hletter : Rule.factor limit (m + 1) (.letter v :: .bar :: ts)
      = .ok (.leaf (.var v), .bar :: ts) := rfl
  rw [expr, term, hletter]
  change (factors limit _ (ts.length + 1) _ (.bar :: ts) >>= _) = _
  rw [factors_bar, h]
  rfl

/-- **Each bar that closes a magnitude is tried as an opening one**, and what is read from there on
is a sum that starts with the next magnitude, negated. So each of the magnitudes takes up two
factors of the budget, if it is not used up before. By induction on the number of magnitudes. -/
theorem exists_expr_magnitudes_eq_error (limit : Nat) {k m : Nat} (h : m ≤ 2 * k + 1) :
    ∃ left, expr limit (Rule.factor limit m) (.letter .x :: .bar :: moreMagnitudes k)
      = (.error ⟨left, .lessNesting⟩ : Except Failure (Node α × List (Token α))) := by
  induction k generalizing m with
  | zero =>
    match m with
    | 0 => exact ⟨_, expr_of_error rfl⟩
    | 1 => exact ⟨_, expr_letter_bar_of_error (factor_bar_of_error (expr_of_error rfl))⟩
  | succ k ih =>
    match m with
    | 0 => exact ⟨_, expr_of_error rfl⟩
    | 1 => exact ⟨_, expr_letter_bar_of_error (factor_bar_of_error (expr_of_error rfl))⟩
    | m + 2 =>
      obtain ⟨left, hfails⟩ := ih (m := m) (by omega)
      exact ⟨left, expr_letter_bar_of_error
        (factor_bar_of_error (expr_of_error (factor_minus_bar_of_error hfails)))⟩

end Rule

namespace Expr

theorem exists_parse_magnitudes_eq_error {k : Nat} (hk : 127 ≤ k) :
    ∃ position, parse (magnitudesText k) = .error ⟨position, .lessNesting⟩ := by
  obtain ⟨lexemes, hlist, htokens⟩ := exists_list_magnitudesText k
  obtain ⟨left, hfails⟩ :=
    Rule.exists_expr_magnitudes_eq_error (α := Float) maxHeight (k := k) (m := 255) (by omega)
  have hread : ofTokens (.bar :: .letter .x :: .bar :: moreMagnitudes k)
      = (.error ⟨left, .lessNesting⟩ : Except Failure (Expr Float)) := by
    rw [ofTokens, maxNesting, Rule.expr_of_error (Rule.factor_bar_of_error hfails)]
    rfl
  rw [parse_of_list hlist, htokens, hread]
  exact ⟨_, rfl⟩

/-- In a difference of 128 magnitudes no more than two factors are inside each other. The bars that
close the magnitudes are tried as opening ones inside each other, and it is refused. -/
theorem flat_difference_refused :
    ∃ lexemes e, Lexeme.list (magnitudesText 127) = .ok lexemes ∧
      Derives .expr 2 (lexemes.map (·.token)) e ∧ e.height ≤ maxHeight ∧
      ∃ position, parse (magnitudesText 127) = .error ⟨position, .lessNesting⟩ := by
  obtain ⟨lexemes, hlist, htokens⟩ := exists_list_magnitudesText 127
  obtain ⟨e, hd, hheight⟩ :=
    exists_derives_magnitudes (α := Float) (.term derives_magnitude) (Nat.le_refl 2) 127
  refine ⟨lexemes, e, hlist, ?_, ?_, exists_parse_magnitudes_eq_error (Nat.le_refl 127)⟩
  · rw [htokens]
    exact hd
  · rw [hheight]
    decide

end Expr

end ImplicitPlot
