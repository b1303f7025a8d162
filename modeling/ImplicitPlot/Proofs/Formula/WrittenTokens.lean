import ImplicitPlot.Proofs.Formula.Enclosure
import ImplicitPlot.Proofs.Formula.ParserCompleteness

/-!
# The tokens of a written formula

A formula is written with parentheses around every operation and bars around every magnitude, so
that its tokens follow its tree (`Expr.tokens`). The grammar derives them with the formula as the
tree, and the number of factors inside each other is read off the tree (`Expr.nesting`): an
operation is a factor with its operands inside, and an exponent stands inside of the factor of its
power.
-/

namespace ImplicitPlot

open Grammar

variable {α : Type}

/-- The token of an operation on two values. -/
def BinaryOp.token : BinaryOp → Token α
  | .add => .plus
  | .sub => .minus
  | .mul => .star
  | .div => .slash
  | .pow => .caret

namespace Expr

/-- The tokens of a written formula. -/
def tokens : Expr α → List (Token α)
  | const c => [.number c]
  | var v => [.letter v]
  | unary .neg a => .openParen :: (.minus :: a.tokens) ++ [.closeParen]
  | unary .abs a => .bar :: a.tokens ++ [.bar]
  | binary op a b => .openParen :: (a.tokens ++ op.token :: b.tokens) ++ [.closeParen]

theorem tokens_neg_append (a : Expr α) (rest : List (Token α)) :
    (unary .neg a).tokens ++ rest
      = .openParen :: .minus :: (a.tokens ++ .closeParen :: rest) := by
  simp only [tokens, List.cons_append, List.append_assoc, List.nil_append]

theorem tokens_abs_append (a : Expr α) (rest : List (Token α)) :
    (unary .abs a).tokens ++ rest = .bar :: (a.tokens ++ .bar :: rest) := by
  simp only [tokens, List.cons_append, List.append_assoc, List.nil_append]

theorem tokens_binary_append (op : BinaryOp) (a b : Expr α) (rest : List (Token α)) :
    (binary op a b).tokens ++ rest
      = .openParen :: (a.tokens ++ op.token :: (b.tokens ++ .closeParen :: rest)) := by
  simp only [tokens, List.cons_append, List.append_assoc, List.nil_append]

/-- The number of factors inside each other in a written formula. -/
def nesting : Expr α → Nat
  | const _ | var _ => 1
  | unary _ a => 1 + a.nesting
  | binary op a b => 1 + max a.nesting (if op = .pow then 1 + b.nesting else b.nesting)

/-- There is no magnitude in the formula. -/
def HasNoMagnitudes : Expr α → Prop := Throughout fun e ↦ ∀ a, e ≠ unary .abs a

theorem exists_tokens_eq (e : Expr α) :
    ∃ t ts, e.tokens = t :: ts ∧ t.startsPrimary = true := by
  match e with
  | const c => exact ⟨_, _, rfl, rfl⟩
  | var v => exact ⟨_, _, rfl, rfl⟩
  | unary .neg a => exact ⟨_, _, rfl, rfl⟩
  | unary .abs a => exact ⟨_, _, rfl, rfl⟩
  | binary op a b => exact ⟨_, _, rfl, rfl⟩

theorem tokens_append_head?_ne_minus (e : Expr α) (rest : List (Token α)) :
    (e.tokens ++ rest).head? ≠ some .minus := by
  obtain ⟨t, ts, htokens, ht⟩ := e.exists_tokens_eq
  rw [htokens]
  rintro ⟨⟩
  cases ht

theorem bar_notMem_tokens {e : Expr α} (h : e.HasNoMagnitudes) : .bar ∉ e.tokens := by
  induction e with
  | const | var => simp [tokens]
  | unary op a ih =>
    cases op with
    | neg => simp [tokens, ih h.2]
    | abs => exact absurd rfl (h.1 a)
  | binary op a b iha ihb =>
    have hop : .bar ≠ (op.token : Token α) := by cases op <;> nofun
    simp [tokens, iha h.2.1, ihb h.2.2, hop]

theorem nesting_pos (e : Expr α) : 0 < e.nesting := by
  cases e with
  | const | var => exact Nat.one_pos
  | unary | binary => exact Nat.lt_of_lt_of_le Nat.one_pos (Nat.le_add_right 1 _)

theorem height_le_nesting (e : Expr α) : e.height ≤ e.nesting := by
  induction e with
  | const | var => exact Nat.le_refl 1
  | unary op a ih =>
    rw [height, nesting]
    omega
  | binary op a b iha ihb =>
    rw [height, nesting]
    split <;> omega

theorem nesting_binary_le_iff {op : BinaryOp} {a b : Expr α} {n : Nat} :
    (binary op a b).nesting ≤ n + 1 ↔
      a.nesting ≤ n ∧ b.nesting ≤ n ∧ (op = .pow → b.nesting < n) := by
  rw [nesting]
  by_cases hop : op = .pow
  · simp only [hop, if_true, true_imp_iff]
    omega
  · simp only [hop, if_false, false_imp_iff, and_true]
    omega

/-- An operand that nests by one less than a factor is a factor. -/
theorem derives_factor_of_primary {e : Expr α} {ts : List (Token α)}
    (h : ∀ n, e.nesting ≤ n + 1 → Derives .primary n ts e) {n : Nat} (hn : e.nesting ≤ n) :
    Derives .factor n ts e := by
  obtain ⟨n, rfl⟩ := Nat.exists_eq_add_of_lt (Nat.lt_of_lt_of_le e.nesting_pos hn)
  exact .operand (.unsigned (h _ (by omega)))

private theorem derives_binary {op : BinaryOp} {a b : Expr α} {ts us : List (Token α)} {n : Nat}
    (ha : ∀ n, a.nesting ≤ n + 1 → Derives .primary n ts a)
    (hb : ∀ n, b.nesting ≤ n + 1 → Derives .primary n us b)
    (hn : (binary op a b).nesting ≤ n + 1) :
    Derives .expr n (ts ++ op.token :: us) (binary op a b) := by
  obtain ⟨hna, hnb, hpow⟩ := nesting_binary_le_iff.mp hn
  have hfa := derives_factor_of_primary ha hna
  have hfb := derives_factor_of_primary hb hnb
  cases op with
  | add => exact .plus (.term (.factor hfa)) (.factor hfb)
  | sub => exact .minus (.term (.factor hfa)) (.factor hfb)
  | mul => exact .term (.times (.factor hfa) hfb)
  | div => exact .term (.divided (.factor hfa) hfb)
  | pow =>
    -- The exponent is inside of the factor that the power is.
    obtain ⟨m, rfl⟩ := Nat.exists_eq_add_of_lt (hpow rfl)
    exact .term (.factor (.power (.unsigned (ha _ hna))
      (derives_factor_of_primary hb (Nat.le_add_right _ m))))

/-- **A written formula is derived by the grammar**, as an operand, and nests as its tree tells. -/
theorem derives_tokens (e : Expr α) : ∀ n, e.nesting ≤ n + 1 → Derives .primary n e.tokens e := by
  induction e with
  | const c => exact fun n _ ↦ .number n c
  | var v => exact fun n _ ↦ .letter n v
  | unary op a ih =>
    intro n hn
    rw [nesting] at hn
    obtain ⟨m, rfl⟩ : ∃ m, n = m + 1 := ⟨n - 1, by have := a.nesting_pos; omega⟩
    have ha := ih m (by omega)
    cases op with
    | neg => exact .parens (.term (.factor (.operand (.negated ha))))
    | abs => exact .bars (.term (.factor (.operand (.unsigned ha))))
  | binary op a b iha ihb => exact fun n hn ↦ .parens (derives_binary iha ihb hn)

end Expr

end ImplicitPlot
