import ImplicitPlot.Proofs.Decimal.LiteralValue
import ImplicitPlot.Proofs.Formula.Enclosure
import ImplicitPlot.Proofs.Formula.Lexemes
import ImplicitPlot.Proofs.Formula.ParserCompleteness
import ImplicitPlot.Proofs.Formula.ReadingLimits

/-!
# The limits of the parser

Reading a text keeps to the limits at every moment, and so does what is read: the trees are within
the greatest height, and their constants are those of the text, which are numbers without signs.
-/

namespace ImplicitPlot

open Grammar

variable {α : Type}

theorem Expr.depth_le_height (e : Expr α) : e.depth ≤ e.height := by
  induction e with
  | const | var => exact Nat.le_refl 1
  | unary op a ih =>
    rw [depth, height]
    omega
  | binary op a b iha ihb =>
    rw [depth, height]
    omega

theorem Grammar.Derives.throughout_constants {s : Symbol} {n : Nat} {ts : List (Token α)}
    {e : Expr α} (h : Derives s n ts e) {P : α → Prop} (hP : ∀ c, .number c ∈ ts → P c) :
    e.Throughout fun e ↦ ∀ c, e = .const c → P c := by
  induction h with
  | letter => exact nofun
  | number n c =>
    rintro c' ⟨⟩
    exact hP c List.mem_cons_self
  | unsigned _ ih | operand _ ih | factor _ ih | term _ ih => exact ih hP
  | parens _ ih => exact ih fun c hc ↦ hP c (List.mem_append_left _ (List.mem_cons_of_mem _ hc))
  | bars _ ih =>
    exact ⟨nofun, ih fun c hc ↦ hP c (List.mem_append_left _ (List.mem_cons_of_mem _ hc))⟩
  | negated _ ih => exact ⟨nofun, ih fun c hc ↦ hP c (List.mem_cons_of_mem _ hc)⟩
  | adjacent _ _ _ iha ihb =>
    exact ⟨nofun, iha fun c hc ↦ hP c (List.mem_append_left _ hc),
      ihb fun c hc ↦ hP c (List.mem_append_right _ hc)⟩
  | power _ _ iha ihb | times _ _ iha ihb | divided _ _ iha ihb | plus _ _ iha ihb
  | minus _ _ iha ihb =>
    exact ⟨nofun, iha fun c hc ↦ hP c (List.mem_append_left _ hc),
      ihb fun c hc ↦ hP c (List.mem_append_right _ (List.mem_cons_of_mem _ hc))⟩

/-- The constants of a text are the values of literals. -/
theorem Lexeme.MadeOf.exists_literal {p : Nat} {cs : List Char} {ls : List Lexeme}
    (h : MadeOf p cs ls) {c : Float} (hc : .number c ∈ ls.map (·.token)) :
    ∃ l : Decimal.Literal, c = l.value := by
  induction h with
  | nil p => cases hc
  | blank _ _ ih => exact ih hc
  | @token p c' ds cs t ls _ hscan _ ih =>
    rcases List.mem_cons.mp hc with rfl | hc
    · rcases scan_cases hscan with ⟨-, l, rest, -, -, -, ht, -⟩ | ⟨-, hchar, -⟩
      · cases ht
        exact ⟨l, rfl⟩
      · rcases Token.ofChar?_cases hchar with hmem | ⟨v, hv, -⟩
        · simp at hmem
        · cases hv
    · exact ih hc

namespace Expr

/-- **The parser keeps to its limits.** The result of a text with lexemes is that of a reading all
of whose moments are sound. A tree that is read from a text is not too high, nor too deep, and its
constants are numbers with a clear sign bit. -/
theorem parse_keeps_limits (text : String) :
    (∀ lexemes, Lexeme.list text = .ok lexemes →
      let reading := Reading.formula .parser (.initial (lexemes.map (·.token)))
      (parse text = match reading.1 with
        | .ok a => .ok a.expr
        | .error f => .error ⟨f.position lexemes text.utf8ByteSize, f.expected⟩) ∧
      ∀ m ∈ reading.2.record, m.Sound .parser) ∧
    ∀ e, parse text = .ok e → e.height ≤ maxHeight ∧ e.depth ≤ maxHeight ∧
      e.Throughout fun e ↦ ∀ c, e = .const c →
        ¬Scalar.IsNaN c ∧ c.toBits.toNat < Nat.pow 2 63 := by
  refine ⟨fun lexemes h ↦ ⟨?_, Reading.sound_of_mem_record (by decide) _⟩, fun e he ↦ ?_⟩
  · rw [parse_of_list h, Reading.ofTokens_eq_formula]
    cases (Reading.formula .parser (.initial (lexemes.map (·.token)))).1 <;> rfl
  · cases h : Lexeme.list text with
    | error error =>
      rw [parse, h] at he
      cases he
    | ok lexemes =>
      rw [parse_of_list h] at he
      cases hread : ofTokens (lexemes.map (·.token)) with
      | error f =>
        rw [hread] at he
        cases he
      | ok e' =>
        rw [hread] at he
        cases he
        obtain ⟨hd, hheight⟩ := derives_of_ofTokens hread
        refine ⟨hheight, Nat.le_trans (depth_le_height e) hheight,
          hd.throughout_constants fun c hc ↦ ?_⟩
        obtain ⟨l, rfl⟩ := (Lexeme.madeOf_of_list h).exists_literal hc
        exact l.value_isNumber

/-- A product with a magnitude. The bar that closes the magnitude is tried as an opening one. -/
theorem magnitude_keeps_limits :
    (∃ lexemes, Lexeme.list "|x|y" = .ok lexemes ∧
      ∀ m ∈ (Reading.formula .parser (.initial (lexemes.map (·.token)))).2.record,
        m.Sound .parser) ∧
    parse "|x|y" = .ok (.binary .mul (.unary .abs (.var .x)) (.var .y)) ∧
    (Expr.binary .mul (.unary .abs (.var .x)) (.var .y) : Expr Float).height ≤ maxHeight := by
  obtain ⟨hreading, htree⟩ := parse_keeps_limits "|x|y"
  have hlexemes : Lexeme.list "|x|y" = .ok [⟨0, 1, .bar⟩, ⟨1, 1, .letter .x⟩, ⟨2, 1, .bar⟩,
      ⟨3, 1, .letter .y⟩] := rfl
  have hparse : parse "|x|y" = .ok (.binary .mul (.unary .abs (.var .x)) (.var .y)) := rfl
  exact ⟨⟨_, hlexemes, (hreading _ hlexemes).2⟩, hparse, (htree _ hparse).1⟩

end Expr

end ImplicitPlot
