import ImplicitPlot.Formula.Printer
import ImplicitPlot.Proofs.Decimal.Written
import ImplicitPlot.Proofs.Formula.Lexemes
import ImplicitPlot.Proofs.Formula.RoundTrip

/-!
# Written formulas as texts

The text of a formula is made up of the formula's tokens. No two of them run into each other: all
tokens but the numbers are single characters, and after a number there is a blank, a parenthesis or
a bar, or the text ends. So what has been shown of the tokens holds of the text: it is read as the
formula, or its factors nest too deep.
-/

namespace ImplicitPlot

open Grammar Decimal

/-! ## Texts made up of tokens -/

/-- The text is made up of the tokens, wherever it starts. -/
def Spells (cs : List Char) (ts : List (Token Float)) : Prop :=
  ∀ position, ∃ lexemes, Lexeme.listFrom position 0 cs = .ok lexemes ∧ lexemes.map (·.token) = ts

private theorem isAsciiBlank_of_isDigit {d : Char} (hd : d.isDigit = true) :
    Text.isAsciiBlank d = false := by
  cases hblank : Text.isAsciiBlank d with
  | false => rfl
  | true =>
    simp only [Text.isAsciiBlank, Bool.or_eq_true, beq_iff_eq] at hblank
    rcases hblank with (((rfl | rfl) | rfl) | rfl) | rfl <;> cases hd

namespace Spells

variable {cs : List Char} {ts : List (Token Float)}

theorem nil : Spells [] [] := fun _ ↦ ⟨[], rfl, rfl⟩

theorem blank (h : Spells cs ts) : Spells (' ' :: cs) ts := fun position ↦ h (position + 1)

/-- A token is taken off, and the text goes on after it. -/
theorem token {c : Char} {t : Token Float} {ds : List Char} (h : Spells cs ts)
    (hblank : Text.isAsciiBlank c = false)
    (hscan : Lexeme.scan c (ds ++ cs) = .ok (t, ds.length + 1)) :
    Spells (c :: (ds ++ cs)) (t :: ts) := by
  intro position
  obtain ⟨lexemes, hlexemes, htokens⟩ := h (position + (ds.length + 1))
  refine ⟨⟨position, ds.length + 1, t⟩ :: lexemes, ?_, congrArg (t :: ·) htokens⟩
  rw [Lexeme.listFrom_token hblank hscan, hlexemes]
  rfl

theorem char {c : Char} {t : Token Float} (h : Spells cs ts)
    (hblank : Text.isAsciiBlank c = false) (hnumeric : (c.isDigit || c = '.') = false)
    (hc : Token.ofChar? c = some t) : Spells (c :: cs) (t :: ts) := by
  have hscan : Lexeme.scan c ([] ++ cs) = .ok (t, 0 + 1) := by
    rw [Lexeme.scan, hnumeric, hc]
    rfl
  exact h.token hblank hscan

/-- A plain literal before a character that no number has. -/
theorem number {l : Literal} (hl : l.IsPlain) (h : Spells cs ts)
    (hcs : ∀ c ∈ cs.head?, Literal.isNumeric c = false) :
    Spells (l.text ++ cs) (.number l.value :: ts) := by
  have hscan := Literal.scan_append hl hcs
  obtain ⟨d, ds, hd, htext⟩ := hl.exists_text_eq
  rw [htext] at hscan ⊢
  refine h.token (isAsciiBlank_of_isDigit hd) ?_
  rw [List.cons_append] at hscan
  rw [Lexeme.scan, hd, Bool.true_or, if_pos rfl, hscan]
  simp only [htext]
  rfl

theorem letter (v : Variable) (h : Spells cs ts) : Spells (v.letter :: cs) (.letter v :: ts) := by
  have hletters : ∀ i : Fin Variable.count, Text.isAsciiBlank (Variable.letter ⟨i⟩) = false ∧
      ((Variable.letter ⟨i⟩).isDigit || Variable.letter ⟨i⟩ = '.') = false ∧
      Token.ofChar? (Variable.letter ⟨i⟩) = some (.letter ⟨i⟩ : Token Float) := by
    decide
  obtain ⟨hblank, hnumeric, hc⟩ := hletters v.index
  exact h.char hblank hnumeric hc

theorem operator (op : BinaryOp) (h : Spells cs ts) :
    Spells (op.symbol :: cs) (op.token :: ts) := by
  cases op with
  | add | sub | mul | div | pow => exact h.char rfl rfl rfl

end Spells

/-! ## The text of a formula -/

namespace Expr

/-- Every constant in the formula is finite, with a clear sign bit, and its text is read back as the
constant. -/
def ConstantsReadBack : Expr Float → Prop :=
  Throughout fun e ↦ ∀ c, e = const c → IsUnsigned c ∧ IsReadBack c

theorem text_var_append (v : Variable) (cs : List Char) :
    (var v).text.toList ++ cs = v.letter :: cs := by
  simp [text, Variable.text]

theorem text_neg_append (a : Expr Float) (cs : List Char) :
    (unary .neg a).text.toList ++ cs = '(' :: '-' :: (a.text.toList ++ ')' :: cs) := by
  simp [text]

theorem text_abs_append (a : Expr Float) (cs : List Char) :
    (unary .abs a).text.toList ++ cs = '|' :: (a.text.toList ++ '|' :: cs) := by
  simp [text]

theorem text_binary_append (op : BinaryOp) (a b : Expr Float) (cs : List Char) :
    (binary op a b).text.toList ++ cs
      = '(' :: (a.text.toList ++ ' ' :: op.symbol :: ' ' :: (b.text.toList ++ ')' :: cs)) := by
  simp [text]

/-- **The text of a formula is made up of its tokens**, before a character that no number has. By
induction on the formula: its operands stand before such characters. -/
theorem spells_text {e : Expr Float} (he : e.ConstantsReadBack) {cs : List Char}
    {ts : List (Token Float)} (h : Spells cs ts)
    (hcs : ∀ c ∈ cs.head?, Literal.isNumeric c = false) :
    Spells (e.text.toList ++ cs) (e.tokens ++ ts) := by
  induction e generalizing cs ts with
  | const c =>
    obtain ⟨hunsigned, hread⟩ := he c rfl
    obtain ⟨l, hl, htext, rfl⟩ := exists_literal hunsigned hread
    rw [text, ← htext]
    exact h.number hl hcs
  | var v =>
    rw [text_var_append]
    exact h.letter v
  | unary op a ih =>
    cases op with
    | neg =>
      have hclose : Spells (')' :: cs) (.closeParen :: ts) := h.char rfl rfl rfl
      have hoperand := ih he.2 hclose (by rintro c ⟨⟩; rfl)
      have hminus : Spells ('-' :: _) (.minus :: _) := hoperand.char rfl rfl rfl
      rw [text_neg_append, tokens_neg_append]
      exact hminus.char rfl rfl rfl
    | abs =>
      have hclose : Spells ('|' :: cs) (.bar :: ts) := h.char rfl rfl rfl
      have hoperand := ih he.2 hclose (by rintro c ⟨⟩; rfl)
      rw [text_abs_append, tokens_abs_append]
      exact hoperand.char rfl rfl rfl
  | binary op a b iha ihb =>
    have hclose : Spells (')' :: cs) (.closeParen :: ts) := h.char rfl rfl rfl
    have hsecond := ihb he.2.2 hclose (by rintro c ⟨⟩; rfl)
    have hfirst := iha he.2.1 (hsecond.blank.operator op).blank (by rintro c ⟨⟩; rfl)
    rw [text_binary_append, tokens_binary_append]
    exact hfirst.char rfl rfl rfl

theorem exists_list_text {e : Expr Float} (he : e.ConstantsReadBack) :
    ∃ lexemes, Lexeme.list e.text = .ok lexemes ∧ lexemes.map (·.token) = e.tokens := by
  have hspells := spells_text he Spells.nil nofun
  rw [List.append_nil, List.append_nil] at hspells
  exact hspells 0

/-- **Written formulas are read back.** If the constants of a formula are finite, with clear sign
bits, and their texts are read back as the constants, then the text of the formula is read as the
formula, or else its factors nest too deep; there is no other outcome. A text without magnitudes is
read if the grammar derives its tokens within the nesting limit. -/
theorem parse_text (e : Expr Float) (he : e.ConstantsReadBack) :
    ∃ lexemes, Lexeme.list e.text = .ok lexemes ∧
      (parse e.text = .ok e ∨ ∃ position, parse e.text = .error ⟨position, .lessNesting⟩) ∧
      (e.HasNoMagnitudes → (∃ e', Derives .expr maxNesting (lexemes.map (·.token)) e') →
        parse e.text = .ok e) := by
  obtain ⟨lexemes, hlist, htokens⟩ := exists_list_text he
  have hparse := parse_of_list hlist
  rw [htokens] at hparse
  refine ⟨lexemes, hlist, ?_, ?_⟩
  · have hreturns := e.returns_ofTokens
    generalize ofTokens e.tokens = read at hparse hreturns
    cases hreturns with
    | value => exact .inl hparse
    | tooDeep left => exact .inr ⟨_, hparse⟩
  · rintro hmagnitudes ⟨e', hderives⟩
    rw [htokens] at hderives
    rw [hparse, ofTokens_eq_of_derives hmagnitudes hderives]

/-- A product that is written with the constant `0.5` and a negated operand. -/
def halvedNegation : Expr Float := binary .mul (const 0.5) (unary .neg (var .x))

theorem halvedNegation_constantsReadBack : halvedNegation.ConstantsReadBack := by
  refine ⟨nofun, ?_, nofun, nofun⟩
  rintro c ⟨⟩
  decide +kernel

/-- The product is read back, and so is its magnitude, unless it is said to nest too deep. -/
theorem parse_text_halvedNegation :
    halvedNegation.text = "(0.5 * (-x))" ∧ parse "(0.5 * (-x))" = .ok halvedNegation ∧
      (parse (unary .abs halvedNegation).text = .ok (unary .abs halvedNegation) ∨
        ∃ position, parse (unary .abs halvedNegation).text = .error ⟨position, .lessNesting⟩) := by
  have htext : halvedNegation.text = "(0.5 * (-x))" := by decide +kernel
  obtain ⟨lexemes, hlist, -, hread⟩ := parse_text _ halvedNegation_constantsReadBack
  obtain ⟨_, -, hmagnitude, -⟩ :=
    parse_text (unary .abs halvedNegation) ⟨nofun, halvedNegation_constantsReadBack⟩
  refine ⟨htext, ?_, hmagnitude⟩
  have hderives : Derives .expr maxNesting (lexemes.map (·.token)) halvedNegation := by
    obtain ⟨lexemes', hlist', htokens⟩ := exists_list_text halvedNegation_constantsReadBack
    cases hlist.symm.trans hlist'
    rw [htokens]
    exact .term (.factor (derives_factor_of_primary halvedNegation.derives_tokens (by decide)))
  rw [← htext]
  exact hread ⟨nofun, nofun, nofun, nofun⟩ ⟨_, hderives⟩

end Expr

end ImplicitPlot
