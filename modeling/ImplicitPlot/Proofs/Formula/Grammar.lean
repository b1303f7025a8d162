import ImplicitPlot.Formula.Expr
import ImplicitPlot.Formula.Token

/-!
# The grammar of formulas

The documented grammar as a relation between the symbols, the tokens that they derive and the tree
of the derivation. Sums and products grow to the left, so that their trees do; a power has a factor
as its exponent, so that powers grow to the right. A factor next to a term is multiplied to it, and
such a factor must not start with a sign.

A derivation is counted by its nesting: the greatest number of factors inside each other. Every
cycle of the grammar passes through `factor`, so that only this symbol is counted.
-/

namespace ImplicitPlot

variable {α : Type}

/-- The height of a formula's tree, counted in nodes. -/
def Expr.height : Expr α → Nat
  | const _ | var _ => 1
  | unary _ a => 1 + a.height
  | binary _ a b => 1 + max a.height b.height

theorem Expr.height_le_of_binary {op : BinaryOp} {a b : Expr α} {n : Nat}
    (h : (binary op a b).height ≤ n) : a.height ≤ n ∧ b.height ≤ n := by
  rw [height] at h
  omega

namespace Grammar

/-- A symbol of the grammar. -/
inductive Symbol
  | expr
  | term
  | factor
  | signed
  | primary

/-- The symbol derives the tokens, with a tree, and with at most the given number of factors inside
each other. -/
inductive Derives : Symbol → Nat → List (Token α) → Expr α → Prop
  | letter (n : Nat) (v : Variable) : Derives .primary n [.letter v] (.var v)
  | number (n : Nat) (c : α) : Derives .primary n [.number c] (.const c)
  | parens {n ts e} : Derives .expr n ts e →
      Derives .primary n (.openParen :: ts ++ [.closeParen]) e
  | bars {n ts e} : Derives .expr n ts e → Derives .primary n (.bar :: ts ++ [.bar]) (.unary .abs e)
  | unsigned {n ts e} : Derives .primary n ts e → Derives .signed n ts e
  | negated {n ts e} : Derives .primary n ts e → Derives .signed n (.minus :: ts) (.unary .neg e)
  | operand {n ts e} : Derives .signed n ts e → Derives .factor (n + 1) ts e
  | power {n ts us a b} : Derives .signed n ts a → Derives .factor n us b →
      Derives .factor (n + 1) (ts ++ .caret :: us) (.binary .pow a b)
  | factor {n ts e} : Derives .factor n ts e → Derives .term n ts e
  | times {n ts us a b} : Derives .term n ts a → Derives .factor n us b →
      Derives .term n (ts ++ .star :: us) (.binary .mul a b)
  | divided {n ts us a b} : Derives .term n ts a → Derives .factor n us b →
      Derives .term n (ts ++ .slash :: us) (.binary .div a b)
  | adjacent {n ts us a b} : Derives .term n ts a → Derives .factor n us b →
      us.head? ≠ some .minus → Derives .term n (ts ++ us) (.binary .mul a b)
  | term {n ts e} : Derives .term n ts e → Derives .expr n ts e
  | plus {n ts us a b} : Derives .expr n ts a → Derives .term n us b →
      Derives .expr n (ts ++ .plus :: us) (.binary .add a b)
  | minus {n ts us a b} : Derives .expr n ts a → Derives .term n us b →
      Derives .expr n (ts ++ .minus :: us) (.binary .sub a b)

namespace Derives

variable {s : Symbol} {n m : Nat} {ts us : List (Token α)} {e : Expr α}

/-- A bound on the nesting may be raised. -/
theorem mono (h : Derives s n ts e) (hle : n ≤ m) : Derives s m ts e := by
  induction h generalizing m with
  | letter n v => exact .letter m v
  | number n c => exact .number m c
  | parens _ ih => exact .parens (ih hle)
  | bars _ ih => exact .bars (ih hle)
  | unsigned _ ih => exact .unsigned (ih hle)
  | negated _ ih => exact .negated (ih hle)
  | operand _ ih =>
    obtain ⟨m, rfl⟩ := Nat.exists_eq_add_of_lt hle
    exact .operand (ih (by omega))
  | power _ _ iha ihb =>
    obtain ⟨m, rfl⟩ := Nat.exists_eq_add_of_lt hle
    exact .power (iha (by omega)) (ihb (by omega))
  | factor _ ih => exact .factor (ih hle)
  | times _ _ iha ihb => exact .times (iha hle) (ihb hle)
  | divided _ _ iha ihb => exact .divided (iha hle) (ihb hle)
  | adjacent _ _ hsign iha ihb => exact .adjacent (iha hle) (ihb hle) hsign
  | term _ ih => exact .term (ih hle)
  | plus _ _ iha ihb => exact .plus (iha hle) (ihb hle)
  | minus _ _ iha ihb => exact .minus (iha hle) (ihb hle)

theorem exists_head (h : Derives s n ts e) :
    ∃ t us, ts = t :: us ∧ (t.startsPrimary = true ∨ t = .minus) := by
  induction h with
  | letter | number => exact ⟨_, _, rfl, .inl rfl⟩
  | parens | bars => exact ⟨_, _, rfl, .inl rfl⟩
  | negated => exact ⟨_, _, rfl, .inr rfl⟩
  | unsigned _ ih | operand _ ih | factor _ ih | term _ ih => exact ih
  | power _ _ ih _ | times _ _ ih _ | divided _ _ ih _ | adjacent _ _ _ ih _ | plus _ _ ih _
  | minus _ _ ih _ =>
    obtain ⟨t, us, rfl, ht⟩ := ih
    exact ⟨t, us ++ _, rfl, ht⟩

theorem exists_startsPrimary (h : Derives s n ts e) (hsign : ts.head? ≠ some .minus) :
    ∃ t us, ts = t :: us ∧ t.startsPrimary = true := by
  obtain ⟨t, us, rfl, ht | rfl⟩ := h.exists_head
  · exact ⟨t, us, rfl, ht⟩
  · exact absurd rfl hsign

theorem head?_ne_minus (h : Derives s n us e) {t : Token α} {ts rest : List (Token α)}
    (hts : t :: ts = us ++ rest) (ht : t.startsPrimary = true) : us.head? ≠ some .minus := by
  obtain ⟨t', us, rfl, -⟩ := h.exists_head
  intro hminus
  cases hts
  cases hminus
  cases ht

theorem head?_ne_minus_of_primary (h : Derives .primary n ts e) : ts.head? ≠ some .minus := by
  cases h <;> nofun

end Derives

end Grammar

end ImplicitPlot
