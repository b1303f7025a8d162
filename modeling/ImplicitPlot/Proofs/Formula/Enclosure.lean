import ImplicitPlot.Proofs.Interval.Operations
import ImplicitPlot.Proofs.Machine.Compile
import ImplicitPlot.Proofs.Sequence

/-!
# Evaluation over intervals encloses the values of a formula

Where the variables range over intervals, the value of a formula at a point of these intervals lies
in the interval that evaluation gives, and it exists: evaluation at the point meets no fault that
evaluation over the intervals does not meet. The proof goes by induction on the formula, and each
operation encloses the results on values of its operands.

Two things are asked for. The exponents are integral constants or their negations
(`Expr.HasIntegralExponents`), and no value that arises on the way, in either evaluation, is
infinite or not a number (`Expr.StaysFinite`).
-/

namespace ImplicitPlot

variable {α : Type} [Scalar α]

open Scalar

/-! ## Formulas -/

namespace Expr

/-- The formula is an integral constant, or the negation of one. -/
def IsIntegralExponent : Expr α → Prop
  | const c | unary .neg (const c) => round c = c
  | _ => False

/-- Every exponent in the formula is an integral constant, or the negation of one. -/
def HasIntegralExponents : Expr α → Prop
  | const _ | var _ => True
  | unary _ a => a.HasIntegralExponents
  | binary op a b =>
    a.HasIntegralExponents ∧ b.HasIntegralExponents ∧ (op = .pow → b.IsIntegralExponent)

/-- A property holds of a formula and of all formulas in it. -/
def Throughout (P : Expr α → Prop) : Expr α → Prop
  | const c => P (const c)
  | var v => P (var v)
  | unary op a => P (unary op a) ∧ a.Throughout P
  | binary op a b => P (binary op a b) ∧ a.Throughout P ∧ b.Throughout P

omit [Scalar α] in
instance decidableThroughout (P : Expr α → Prop) [DecidablePred P] :
    (e : Expr α) → Decidable (e.Throughout P)
  | const c => inferInstanceAs (Decidable (P (const c)))
  | var v => inferInstanceAs (Decidable (P (var v)))
  | unary op a =>
    have := decidableThroughout P a
    inferInstanceAs (Decidable (P (unary op a) ∧ a.Throughout P))
  | binary op a b =>
    have := decidableThroughout P a
    have := decidableThroughout P b
    inferInstanceAs (Decidable (P (binary op a b) ∧ a.Throughout P ∧ b.Throughout P))

omit [Scalar α] in
theorem Throughout.here {P : Expr α → Prop} {e : Expr α} (h : e.Throughout P) : P e := by
  cases e with
  | const | var => exact h
  | unary | binary => exact h.1

/-- Over the intervals of the variables, and at a point, no value that arises for the formula or
in it is infinite or not a number. -/
def StaysFinite (vars : Variable → Interval α) (p : Variable → α) : Expr α → Prop :=
  Throughout fun e ↦ (∀ a, e.onIntervals vars = .ok a → a.IsBounded) ∧
    ∀ v, e.atPoint p = .ok v → IsFinite v

instance (vars : Variable → Interval α) (p : Variable → α) (e : Expr α) :
    Decidable (e.StaysFinite vars p) :=
  decidableThroughout _ e

variable [Lawful α] {vars : Variable → Interval α} {p : Variable → α} {e : Expr α} {a : Interval α}

/-- An exponent is one integer, over all intervals and at all points. -/
theorem IsIntegralExponent.eq_point (he : e.IsIntegralExponent) (h : e.onIntervals vars = .ok a)
    (ha : a.IsBounded) : ∃ k, e.atPoint p = .ok k ∧ a = .point k ∧ Interval.IsIntegral k := by
  match e, he, h with
  | const c, he, h =>
    cases h
    exact ⟨c, rfl, rfl, ha.1, he⟩
  | unary .neg (const c), he, h =>
    have hneg : a = .point (-c) := Interval.eq_of_ofBounds h ha
    rw [hneg] at ha
    have hround : round (-c) = -c := (Lawful.round_neg c).trans (congrArg (-·) he)
    exact ⟨-c, rfl, hneg, ha.1, hround⟩

/-- **Evaluation over intervals is sound.** By induction on the formula. The operands succeed if the
operation does, so each has a value at the point, which the operation takes to a value in its
interval. -/
theorem exists_atPoint [OrderPreserving α] (hp : ∀ v, (vars v).Contains (p v))
    (he : e.HasIntegralExponents) (hfin : e.StaysFinite vars p) (h : e.onIntervals vars = .ok a) :
    ∃ v, e.atPoint p = .ok v ∧ a.Contains v := by
  induction e generalizing a with
  | const c =>
    cases h
    have hc := le_refl_of_isFinite (hfin.2 c rfl)
    exact ⟨c, rfl, hc, hc⟩
  | var v =>
    cases h
    exact ⟨p v, rfl, hp v⟩
  | unary op e ih =>
    obtain ⟨x, hx, hop⟩ := exists_of_bind_eq_ok h
    obtain ⟨v, hv, hxv⟩ := ih he hfin.2 hx
    refine ⟨op.onNumber v, ?_, ?_⟩
    · rw [atPoint, hv]
      rfl
    · exact UnaryOp.contains_onNumber (hfin.2.here.1 x hx) hxv hop (hfin.1.1 a h)
  | binary op e f ihe ihf =>
    obtain ⟨hee, hef, hpow⟩ := he
    obtain ⟨hfin, hfine, hfinf⟩ := hfin
    obtain ⟨x, hx, hrest⟩ := exists_of_bind_eq_ok h
    obtain ⟨y, hy, hop⟩ := exists_of_bind_eq_ok hrest
    obtain ⟨v, hv, hxv⟩ := ihe hee hfine hx
    obtain ⟨w, hw, hyw⟩ := ihf hef hfinf hy
    have hby := hfinf.here.1 y hy
    -- The point value of an exponent is the one value in its interval.
    have hexp : op = .pow → y = .point w ∧ Interval.IsIntegral w := by
      intro heq
      obtain ⟨k, hk, hyk, hint⟩ := (hpow heq).eq_point (p := p) hy hby
      cases hw.symm.trans hk
      exact ⟨hyk, hint⟩
    obtain ⟨z, hz, hmem⟩ := BinaryOp.exists_onNumbers (hfine.here.1 x hx) hby
      (hfine.here.2 v hv) (hfinf.here.2 w hw) hxv hyw hexp hop (hfin.1 a h)
    refine ⟨z, ?_, hmem⟩
    rw [atPoint, hv, hw]
    exact hz

end Expr

end ImplicitPlot
