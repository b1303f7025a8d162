import ImplicitPlot.Proofs.Formula.Enclosure

/-!
# Formulas with shared values

A sum or difference of a formula and its magnitude is evaluated with the formula computed once. The
match that leads to this is a tolerant one: the two formulas may differ a little in their constants,
and then a value of the one is taken for the other. Where only equal formulas match
(`Expr.SharesEqualTrees`), nothing is lost: the shared value is the value of both.

This file has the equations of the evaluation that shares, one for each shape, and the case where it
differs from the plain evaluation in nothing at all, since no power is small enough for a product.
-/

namespace ImplicitPlot

variable {α : Type} [Scalar α]

namespace Expr

/-! ## What is shared -/

/-- No power has a constant exponent that stands for an integer from one to four. -/
def HasNoSmallPowers : Expr α → Prop :=
  Throughout fun e ↦ ∀ a b k, e = binary .pow a b → b.asInteger? = some k → ¬(1 ≤ k ∧ k ≤ 4)

/-- In every sum or difference of a magnitude and another formula, on either side, the formula
inside the magnitude matches the other one only if the two are equal. -/
def SharesEqualTrees : Expr α → Prop :=
  Throughout fun e ↦ ∀ op a b, op = .add ∨ op = .sub →
    e = binary op (unary .abs a) b ∨ e = binary op b (unary .abs a) → a.nearlyEquals b → a = b

variable {vars : Variable → Interval α} {a b : Expr α} {op : BinaryOp}

private theorem factors?_eq_none_of_not_small
    (h : ∀ k, b.asInteger? = some k → ¬(1 ≤ k ∧ k ≤ 4)) : b.factors? = none := by
  rw [factors?, Option.map_eq_none_iff, Option.filter_eq_none_iff]
  intro k hk
  rw [decide_eq_true_iff]
  exact h k hk

namespace SharesEqualTrees

/-- A magnitude in front that is shared is the magnitude of the second operand itself. -/
theorem eq_before (h : (binary op a b).SharesEqualTrees) (hop : op = .add ∨ op = .sub)
    (hab : a.IsMagnitudeOf b) : a = unary .abs b := by
  obtain ⟨e, rfl, hnear⟩ := hab
  rw [h.here op e b hop (.inl rfl) hnear]

theorem eq_after (h : (binary op a b).SharesEqualTrees) (hop : op = .add ∨ op = .sub)
    (hba : b.IsMagnitudeOf a) : b = unary .abs a := by
  obtain ⟨e, rfl, hnear⟩ := hba
  rw [h.here op e a hop (.inr rfl) hnear]

end SharesEqualTrees

/-! ## The evaluation that shares, by shapes -/

theorem onIntervalsShared_mul_div (hop : op = .mul ∨ op = .div) :
    (binary op a b).onIntervalsShared vars = (do
      let x ← a.onIntervalsShared vars
      let y ← b.onIntervalsShared vars
      op.onIntervals x y) := by
  rcases hop with rfl | rfl <;> rfl

theorem onIntervalsShared_add_sub (hop : op = .add ∨ op = .sub) :
    (binary op a b).onIntervalsShared vars =
      if a.IsMagnitudeOf b then (do
        let y ← b.onIntervalsShared vars
        let x ← y.abs
        op.onIntervals x y)
      else if b.IsMagnitudeOf a then (do
        let x ← a.onIntervalsShared vars
        let y ← x.abs
        op.onIntervals x y)
      else (do
        let x ← a.onIntervalsShared vars
        let y ← b.onIntervalsShared vars
        op.onIntervals x y) := by
  rcases hop with rfl | rfl <;> rfl

private theorem onIntervalsShared_pow_of_factors {n : Nat} (h : b.factors? = some n) :
    (binary .pow a b).onIntervalsShared vars = (do
      let x ← a.onIntervalsShared vars
      (if n % 2 = 0 then x.abs else .ok x) >>= fun y ↦ y.product (n - 1)) := by
  rw [onIntervalsShared, h]
  by_cases heven : n % 2 = 0
  · simp only [if_pos heven]
  · simp only [if_neg heven]

theorem onIntervalsShared_pow (h : b.factors? = none) :
    (binary .pow a b).onIntervalsShared vars = (do
      let x ← a.onIntervalsShared vars
      let y ← b.onIntervalsShared vars
      BinaryOp.pow.onIntervals x y) := by
  rw [onIntervalsShared, h]

/-- The ways in which the evaluation that shares comes to the value of an operation on two
formulas. -/
inductive SharedSteps (vars : Variable → Interval α) (op : BinaryOp) (a b : Expr α)
    (r : Interval α) : Prop
  | plain {x y : Interval α} (hx : a.onIntervalsShared vars = .ok x)
      (hy : b.onIntervalsShared vars = .ok y) (h : op.onIntervals x y = .ok r)
  /-- The first operand is computed from the second one. -/
  | before {x y : Interval α} (hop : op = .add ∨ op = .sub) (hab : a.IsMagnitudeOf b)
      (hy : b.onIntervalsShared vars = .ok y) (hx : y.abs = .ok x) (h : op.onIntervals x y = .ok r)
  /-- The second operand is computed from the first one. -/
  | after {x y : Interval α} (hop : op = .add ∨ op = .sub) (hba : b.IsMagnitudeOf a)
      (hx : a.onIntervalsShared vars = .ok x) (hy : x.abs = .ok y) (h : op.onIntervals x y = .ok r)
  | product {n : Nat} {x y : Interval α} (hop : op = .pow) (hn : b.factors? = some n)
      (hx : a.onIntervalsShared vars = .ok x)
      (hy : (if n % 2 = 0 then x.abs else .ok x) = .ok y) (h : y.product (n - 1) = .ok r)

theorem sharedSteps {r : Interval α} (h : (binary op a b).onIntervalsShared vars = .ok r) :
    SharedSteps vars op a b r := by
  have hplain : (do
      let x ← a.onIntervalsShared vars
      let y ← b.onIntervalsShared vars
      op.onIntervals x y) = .ok r → SharedSteps vars op a b r := by
    intro h
    obtain ⟨x, hx, h⟩ := exists_of_bind_eq_ok h
    obtain ⟨y, hy, h⟩ := exists_of_bind_eq_ok h
    exact .plain hx hy h
  have hsum : op = .add ∨ op = .sub → SharedSteps vars op a b r := by
    intro hop
    rw [onIntervalsShared_add_sub hop] at h
    split at h
    next hab =>
      obtain ⟨y, hy, h⟩ := exists_of_bind_eq_ok h
      obtain ⟨x, hx, h⟩ := exists_of_bind_eq_ok h
      exact .before hop hab hy hx h
    split at h
    next hba =>
      obtain ⟨x, hx, h⟩ := exists_of_bind_eq_ok h
      obtain ⟨y, hy, h⟩ := exists_of_bind_eq_ok h
      exact .after hop hba hx hy h
    next => exact hplain h
  cases op with
  | add => exact hsum (.inl rfl)
  | sub => exact hsum (.inr rfl)
  | mul | div => exact hplain h
  | pow =>
    cases hn : b.factors? with
    | none => exact hplain (onIntervalsShared_pow hn ▸ h)
    | some n =>
      rw [onIntervalsShared_pow_of_factors hn] at h
      obtain ⟨x, hx, h⟩ := exists_of_bind_eq_ok h
      obtain ⟨y, hy, h⟩ := exists_of_bind_eq_ok h
      exact .product rfl hn hx hy h

/-! ## Evaluating once or twice -/

/-- A magnitude in front of its own value: the second evaluation cannot end otherwise than the first
one did. -/
theorem onIntervals_before :
    (binary op (unary .abs b) b).onIntervals vars = (do
      let y ← b.onIntervals vars
      let x ← y.abs
      op.onIntervals x y) := by
  rw [onIntervals, onIntervals]
  cases b.onIntervals vars with
  | error f => rfl
  | ok y => rfl

theorem onIntervals_after :
    (binary op a (unary .abs a)).onIntervals vars = (do
      let x ← a.onIntervals vars
      let y ← x.abs
      op.onIntervals x y) := by
  rw [onIntervals, onIntervals]
  cases a.onIntervals vars with
  | error f => rfl
  | ok x => rfl

/-- **Sharing equal values is exact.** By induction on the formula: the operands evaluate alike, and
where one of them is the magnitude of the other, evaluating the other one twice gives the same. -/
theorem onIntervalsShared_eq {e : Expr α} (hpow : e.HasNoSmallPowers)
    (hshare : e.SharesEqualTrees) :
    e.onIntervalsShared vars = e.onIntervals vars := by
  induction e with
  | const | var => rfl
  | unary op a ih => rw [onIntervalsShared, onIntervals, ih hpow.2 hshare.2]
  | binary op a b iha ihb =>
    have ha := iha hpow.2.1 hshare.2.1
    have hb := ihb hpow.2.2 hshare.2.2
    have hsum : op = .add ∨ op = .sub →
        (binary op a b).onIntervalsShared vars = (binary op a b).onIntervals vars := by
      intro hop
      rw [onIntervalsShared_add_sub hop]
      by_cases hbefore : a.IsMagnitudeOf b
      · rw [if_pos hbefore, hshare.eq_before hop hbefore, onIntervals_before, hb]
      by_cases hafter : b.IsMagnitudeOf a
      · rw [if_neg hbefore, if_pos hafter, hshare.eq_after hop hafter, onIntervals_after, ha]
      · rw [if_neg hbefore, if_neg hafter, ha, hb, onIntervals]
    cases op with
    | add => exact hsum (.inl rfl)
    | sub => exact hsum (.inr rfl)
    | mul => rw [onIntervalsShared_mul_div (.inl rfl), ha, hb, onIntervals]
    | div => rw [onIntervalsShared_mul_div (.inr rfl), ha, hb, onIntervals]
    | pow =>
      have hnone := factors?_eq_none_of_not_small fun k ↦ hpow.here a b k rfl
      rw [onIntervalsShared_pow hnone, ha, hb, onIntervals]

end Expr

/-! ## Programs -/

namespace Program

open ImplicitPlot.Expr

theorem outcome_compile_eq_of_equal_trees (hadd : ∀ a b : α, a + b = b + a) {e : Expr α}
    (hpow : e.HasNoSmallPowers) (hshare : e.SharesEqualTrees) (c : Context α) :
    (compile e).execute.outcome c = (compileDirect e).execute.outcome c := by
  rw [outcome_compile hadd, outcome_compileDirect, onIntervalsShared_eq hpow hshare]

/-- **Sharing a value with its magnitude is exact.** If only equal formulas match, and no power
becomes a product, both programs of a formula return the same interval or the same fault in every
context, whatever intervals are bound. Of the operations on numbers nothing is asked but that they
are functions. Only the order of the operands of a sum is not kept, which makes no difference to
binary64 numbers; of other numbers it has to be known that sums commute. -/
theorem shared_magnitudes_exact :
    (∀ (e : Expr Float) (c : Context Float), e.HasNoSmallPowers → e.SharesEqualTrees →
      (compile e).execute.outcome c = (compileDirect e).execute.outcome c) ∧
    ∀ {β : Type} [Scalar β] (e : Expr β) (c : Context β), (∀ a b : β, a + b = b + a) →
      e.HasNoSmallPowers → e.SharesEqualTrees →
      (compile e).execute.outcome c = (compileDirect e).execute.outcome c :=
  ⟨fun _ c hpow hshare ↦ outcome_compile_eq_of_equal_trees Binary64.add_comm hpow hshare c,
    fun _ c hadd hpow hshare ↦ outcome_compile_eq_of_equal_trees hadd hpow hshare c⟩

end Program

namespace Expr

/-- A difference of a magnitude and its value, added to the magnitude of that difference. -/
def nestedMagnitudes : Expr Float :=
  let d : Expr Float := binary .sub (unary .abs (var .x)) (var .x)
  binary .add (unary .abs d) d

theorem nestedMagnitudes_hasNoSmallPowers : nestedMagnitudes.HasNoSmallPowers :=
  ⟨nofun, ⟨nofun, nofun, ⟨nofun, nofun⟩, nofun⟩, nofun, ⟨nofun, nofun⟩, nofun⟩

theorem nestedMagnitudes_sharesEqualTrees : nestedMagnitudes.SharesEqualTrees := by
  have hleaf : (var .x : Expr Float).SharesEqualTrees := by
    rintro op a b - (h | h) <;> cases h
  have hd : (binary .sub (unary .abs (var .x)) (var .x) : Expr Float).SharesEqualTrees := by
    refine ⟨?_, ⟨?_, hleaf⟩, hleaf⟩
    · rintro op a b - (h | h) - <;> cases h
      rfl
    · rintro op a b - (h | h) <;> cases h
  refine ⟨?_, ⟨?_, hd⟩, hd⟩
  · rintro op a b - (h | h) - <;> cases h
    rfl
  · rintro op a b - (h | h) <;> cases h

/-- A value is shared inside a value that is shared. -/
theorem nestedMagnitudes_exact :
    nestedMagnitudes.HasNoSmallPowers ∧ nestedMagnitudes.SharesEqualTrees ∧
      ∀ c, (Program.compile nestedMagnitudes).execute.outcome c
        = (Program.compileDirect nestedMagnitudes).execute.outcome c :=
  ⟨nestedMagnitudes_hasNoSmallPowers, nestedMagnitudes_sharesEqualTrees, fun c ↦
    Program.shared_magnitudes_exact.1 _ c nestedMagnitudes_hasNoSmallPowers
      nestedMagnitudes_sharesEqualTrees⟩

end Expr

end ImplicitPlot
