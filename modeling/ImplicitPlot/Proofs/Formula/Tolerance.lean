import ImplicitPlot.Proofs.Formula.Grammar
import ImplicitPlot.Proofs.Formula.Likeness
import ImplicitPlot.Proofs.Formula.SharingInclusion

/-!
# Nearly equal formulas

A formula and the inside of a magnitude share a value as soon as they are nearly equal, that is, of
one shape with constants that differ by less than the tolerance. Then the magnitude is that of the
other formula, and the formula inside the magnitude is not evaluated at all. How far the values of
the two are apart depends on what their constants are multiplied with, so the tolerance does not
bound the error: at single values, it is the difference of the two magnitudes, together with the
error of the other formula (`Program.error_of_shared_magnitude`).
-/

namespace ImplicitPlot

open Scalar

variable {α : Type}

namespace Expr

theorem Alike.height_eq {related : α → α → Bool} {a b : Expr α} (h : Alike related a b) :
    a.height = b.height := by
  induction h with
  | const | var => rfl
  | unary op _ ih => rw [height, height, ih]
  | binary op _ _ iha ihb => rw [height, height, iha, ihb]

variable [Scalar α] {vars : Variable → Interval α} {a b : Expr α} {op : BinaryOp}

theorem not_isMagnitudeOf_abs (h : a.nearlyEquals b = true) : ¬b.IsMagnitudeOf (unary .abs a) := by
  rintro ⟨e, rfl, he⟩
  have ha := (alike_iff.mp h).height_eq
  have he := (alike_iff.mp he).height_eq
  rw [height] at ha he
  omega

private theorem onIntervalsShared_abs_before (hop : op = .add ∨ op = .sub)
    (h : a.nearlyEquals b = true) :
    (binary op (unary .abs a) b).onIntervalsShared vars = (do
      let y ← b.onIntervalsShared vars
      let x ← y.abs
      op.onIntervals x y) := by
  rw [onIntervalsShared_add_sub hop, if_pos ⟨a, rfl, h⟩]

private theorem onIntervalsShared_abs_after (hop : op = .add ∨ op = .sub)
    (h : a.nearlyEquals b = true) :
    (binary op b (unary .abs a)).onIntervalsShared vars = (do
      let x ← b.onIntervalsShared vars
      let y ← x.abs
      op.onIntervals x y) := by
  rw [onIntervalsShared_add_sub hop, if_neg (not_isMagnitudeOf_abs h), if_pos ⟨a, rfl, h⟩]

/-- The value of a formula is a single one if those of the variables are. -/
theorem isSingle_of_onIntervals [Lawful α] {I : Interval α} (hvars : ∀ v, (vars v).IsSingle)
    (h : a.onIntervals vars = .ok I) : I.IsSingle := by
  induction a generalizing I with
  | const c =>
    cases h
    exact ⟨c, rfl⟩
  | var v =>
    cases h
    exact hvars v
  | unary op a ih =>
    obtain ⟨x, hx, hop⟩ := exists_of_bind_eq_ok h
    exact UnaryOp.isSingle_of_onInterval (ih hx) hop
  | binary op a b iha ihb =>
    obtain ⟨x, hx, hrest⟩ := exists_of_bind_eq_ok h
    obtain ⟨y, hy, hop⟩ := exists_of_bind_eq_ok hrest
    exact BinaryOp.isSingle_of_onIntervals (iha hx) (ihb hy) hop

end Expr

/-! ## Exact single values -/

namespace Exact

@[simp] theorem checked_self (v : ℚ) : Interval.checked v v = .ok (.point v) :=
  if_pos (.inl (le_refl (v : ℚ)))

@[simp] theorem ofBounds_self (v : ℚ) : Interval.ofBounds v v = .ok (.point v) := by
  rw [Interval.ofBounds, if_neg (not_or.mpr ⟨not_isNaN v, not_isNaN v⟩), checked_self]

@[simp] theorem add_point (v w : ℚ) : (Interval.point v).add (.point w) = .ok (.point (v + w)) :=
  ofBounds_self (v + w)

@[simp] theorem sub_point (v w : ℚ) : (Interval.point v).sub (.point w) = .ok (.point (v - w)) :=
  ofBounds_self (v - w)

@[simp] theorem abs_point (v : ℚ) : (Interval.point v).abs = .ok (.point |v|) := by
  rw [Interval.abs]
  split
  next hneg =>
    have hneg : v < 0 := hneg
    have hpos : ¬0 < (Interval.point v).upper := not_lt.mpr hneg.le
    rw [if_neg hpos, abs_of_neg hneg]
    exact checked_self (-v)
  next hpos =>
    have hpos : 0 ≤ v := not_lt.mp hpos
    rw [abs_of_nonneg hpos]

/-- Where both operands are replaced by others, a sum or difference changes by the sum or difference
of the changes. -/
theorem abs_error {op : BinaryOp} (hop : op = .add ∨ op = .sub) {m m' w w' : ℚ} {i j : Interval ℚ}
    (h : op.onIntervals (.point m) (.point w) = .ok i ∧
        op.onIntervals (.point m') (.point w') = .ok j ∨
      op.onIntervals (.point w) (.point m) = .ok i ∧
        op.onIntervals (.point w') (.point m') = .ok j) :
    ∃ x y d, i = .point x ∧ j = .point y ∧ op.onNumbers (m - m') (w - w') = .ok d ∧
      |x - y| = |d| := by
  rcases hop with rfl | rfl
  · rcases h with ⟨hi, hj⟩ | ⟨hi, hj⟩
    · cases (add_point m w).symm.trans hi
      cases (add_point m' w').symm.trans hj
      exact ⟨_, _, _, rfl, rfl, rfl, by rw [add_sub_add_comm]⟩
    · cases (add_point w m).symm.trans hi
      cases (add_point w' m').symm.trans hj
      exact ⟨_, _, _, rfl, rfl, rfl, by rw [add_sub_add_comm, add_comm]⟩
  · rcases h with ⟨hi, hj⟩ | ⟨hi, hj⟩
    · cases (sub_point m w).symm.trans hi
      cases (sub_point m' w').symm.trans hj
      exact ⟨_, _, _, rfl, rfl, rfl, by rw [sub_sub_sub_comm]⟩
    · cases (sub_point w m).symm.trans hi
      cases (sub_point w' m').symm.trans hj
      exact ⟨_, _, _, rfl, rfl, rfl, by rw [sub_sub_sub_comm, abs_sub_comm]⟩

private theorem abs_error_self {op : BinaryOp} (hop : op = .add ∨ op = .sub) {m w d : ℚ}
    (h : op.onNumbers m (w - w) = .ok d) : |d| = |m| := by
  rcases hop with rfl | rfl
  · obtain rfl := Except.ok.inj h
    rw [sub_self, add_zero]
  · obtain rfl := Except.ok.inj h
    rw [sub_self, sub_zero]

/-- The numbers are apart by rounding at most. -/
def AgreeUpToRounding (x y : ℚ) : Prop := |x - y| ≤ 1e-9 * max |x| |y|

instance (x y : ℚ) : Decidable (AgreeUpToRounding x y) := inferInstanceAs (Decidable (_ ≤ _))

end Exact

/-! ## Programs -/

namespace Program

/-- A magnitude that is nearly that of the other operand is computed from the other operand. -/
theorem outcome_shared_magnitude [Scalar α] (hadd : ∀ a b : α, a + b = b + a) {a b : Expr α}
    {op : BinaryOp} (hop : op = .add ∨ op = .sub) (h : a.nearlyEquals b = true) (c : Context α) :
    (compile (.binary op (.unary .abs a) b)).execute.outcome c = (do
        let y ← (compile b).execute.outcome c
        let x ← y.abs
        op.onIntervals x y) ∧
      (compile (.binary op b (.unary .abs a))).execute.outcome c = (do
        let x ← (compile b).execute.outcome c
        let y ← x.abs
        op.onIntervals x y) := by
  rw [outcome_compile hadd, outcome_compile hadd, outcome_compile hadd]
  exact ⟨Expr.onIntervalsShared_abs_before hop h, Expr.onIntervalsShared_abs_after hop h⟩

section Exact

variable {a b e : Expr ℚ} {op : BinaryOp} {c : Context ℚ} {x y z m i j : Interval ℚ}

/-- At single values, the operands of both programs are single values, and so are their
magnitudes. -/
theorem exists_points_of_operands (hpoints : ∀ v, (c.lookup v).IsPoint)
    (hx : (Expr.unary .abs a).onIntervals c.lookup = .ok x) (hz : b.onIntervals c.lookup = .ok z)
    (hy : (compile b).execute.outcome c = .ok y) (hm : y.abs = .ok m) :
    ∃ v w w', a.onIntervals c.lookup = .ok (.point v) ∧ x = .point |v| ∧ z = .point w ∧
      y = .point w' ∧ m = .point |w'| := by
  have hsingle (v : Variable) := Exact.isSingle_of_isPoint (hpoints v)
  obtain ⟨u, hu, hx⟩ := exists_of_bind_eq_ok hx
  rw [outcome_compile add_comm] at hy
  obtain ⟨v, rfl⟩ := Expr.isSingle_of_onIntervals hsingle hu
  obtain ⟨w, rfl⟩ := Expr.isSingle_of_onIntervals hsingle hz
  obtain ⟨w', rfl⟩ := Expr.isSingle_of_onIntervalsShared hsingle hy
  cases (Exact.abs_point v).symm.trans hx
  cases (Exact.abs_point w').symm.trans hm
  exact ⟨v, w, w', hu, rfl, rfl, rfl, rfl⟩

/-- At single values, the programs of a formula that shares nothing but equal formulas have one
value. -/
theorem eq_of_shared (hexp : b.HasIntegralExponents) (hshare : b.SharesEqualTrees)
    (hpoints : ∀ v, (c.lookup v).IsPoint) {w w' : ℚ}
    (hw : (compileDirect b).execute.outcome c = .ok (.point w))
    (hw' : (compile b).execute.outcome c = .ok (.point w')) : w' = w := by
  have hvalid (v : Variable) : (c.lookup v).Valid := by
    obtain ⟨u, hu⟩ := Exact.isSingle_of_isPoint (hpoints v)
    rw [hu]
    exact Interval.valid_point u
  rw [outcome_compileDirect] at hw
  rw [outcome_compile add_comm] at hw'
  obtain ⟨x, hx, hwithin⟩ := Expr.exists_onIntervals_within hvalid hexp hshare hw'
  cases hx.symm.trans hw
  have heq := Exact.eq_of_within_single (.inl (le_refl (w : ℚ))) hwithin ⟨w', rfl⟩
  cases heq
  rfl

/-- **The error of a shared magnitude.** Over exact numbers and at single values, let a magnitude be
nearly that of the other operand. If both programs succeed, their values are apart by the sum or
difference of two errors: that of the magnitude, which is computed from the other operand, and that
of the other operand itself. -/
theorem error_of_shared_magnitude (hop : op = .add ∨ op = .sub) (h : a.nearlyEquals b = true)
    (he : e = .binary op (.unary .abs a) b ∨ e = .binary op b (.unary .abs a))
    (hpoints : ∀ v, (c.lookup v).IsPoint) (hi : (compileDirect e).execute.outcome c = .ok i)
    (hj : (compile e).execute.outcome c = .ok j) :
    ∃ v w w' x y d, (compileDirect a).execute.outcome c = .ok (.point v) ∧
      (compileDirect b).execute.outcome c = .ok (.point w) ∧
      (compile b).execute.outcome c = .ok (.point w') ∧ i = .point x ∧ j = .point y ∧
      op.onNumbers (|v| - |w'|) (w - w') = .ok d ∧ |x - y| = |d| := by
  obtain ⟨hbefore, hafter⟩ := outcome_shared_magnitude add_comm hop h c
  simp only [outcome_compileDirect] at hi ⊢
  rcases he with rfl | rfl
  · rw [hbefore] at hj
    obtain ⟨x, hx, hi⟩ := exists_of_bind_eq_ok hi
    obtain ⟨z, hz, hi⟩ := exists_of_bind_eq_ok hi
    obtain ⟨y, hy, hj⟩ := exists_of_bind_eq_ok hj
    obtain ⟨m, hm, hj⟩ := exists_of_bind_eq_ok hj
    obtain ⟨v, w, w', hv, rfl, rfl, rfl, rfl⟩ := exists_points_of_operands hpoints hx hz hy hm
    obtain ⟨p, q, d, hp, hq, hd, herror⟩ := Exact.abs_error hop (.inl ⟨hi, hj⟩)
    exact ⟨v, w, w', p, q, d, hv, hz, hy, hp, hq, hd, herror⟩
  · rw [hafter] at hj
    obtain ⟨z, hz, hi⟩ := exists_of_bind_eq_ok hi
    obtain ⟨x, hx, hi⟩ := exists_of_bind_eq_ok hi
    obtain ⟨y, hy, hj⟩ := exists_of_bind_eq_ok hj
    obtain ⟨m, hm, hj⟩ := exists_of_bind_eq_ok hj
    obtain ⟨v, w, w', hv, rfl, rfl, rfl, rfl⟩ := exists_points_of_operands hpoints hx hz hy hm
    obtain ⟨p, q, d, hp, hq, hd, herror⟩ := Exact.abs_error hop (.inr ⟨hi, hj⟩)
    exact ⟨v, w, w', p, q, d, hv, hz, hy, hp, hq, hd, herror⟩

end Exact

/-- **What the tolerance changes.** If a formula is nearly equal to the other operand of its
magnitude, in a sum or difference and on either side, the optimized program does not evaluate it: it
goes by the other operand alone. Where the arithmetic is exact and the variables have single values,
the values of the two programs are apart by the sum or difference of the errors of the two operands.
There is no error in an operand that shares nothing but equal formulas itself, and then the programs
are as far apart as the two magnitudes, so no further than the two formulas. -/
theorem tolerance_shares_value (op : BinaryOp) (hop : op = .add ∨ op = .sub) :
    (∀ (a b : Expr Float) (c : Context Float), a.nearlyEquals b = true →
      (compile (.binary op (.unary .abs a) b)).execute.outcome c = (do
          let y ← (compile b).execute.outcome c
          let x ← y.abs
          op.onIntervals x y) ∧
        (compile (.binary op b (.unary .abs a))).execute.outcome c = (do
          let x ← (compile b).execute.outcome c
          let y ← x.abs
          op.onIntervals x y)) ∧
    ∀ (a b e : Expr ℚ) (c : Context ℚ) (i j : Interval ℚ), a.nearlyEquals b = true →
      e = .binary op (.unary .abs a) b ∨ e = .binary op b (.unary .abs a) →
      (∀ v, (c.lookup v).IsPoint) → (compileDirect e).execute.outcome c = .ok i →
      (compile e).execute.outcome c = .ok j →
      ∃ v w w' x y d, (compileDirect a).execute.outcome c = .ok (.point v) ∧
        (compileDirect b).execute.outcome c = .ok (.point w) ∧
        (compile b).execute.outcome c = .ok (.point w') ∧ i = .point x ∧ j = .point y ∧
        op.onNumbers (|v| - |w'|) (w - w') = .ok d ∧ |x - y| = |d| ∧
        (b.HasIntegralExponents → b.SharesEqualTrees →
          w' = w ∧ |x - y| = |(|v| - |w|)| ∧ |x - y| ≤ |v - w|) := by
  refine ⟨fun a b c h ↦ outcome_shared_magnitude Binary64.add_comm hop h c, ?_⟩
  intro a b e c i j h he hpoints hi hj
  obtain ⟨v, w, w', x, y, d, hv, hw, hw', hx, hy, hd, herror⟩ :=
    error_of_shared_magnitude hop h he hpoints hi hj
  refine ⟨v, w, w', x, y, d, hv, hw, hw', hx, hy, hd, herror, fun hexp hshare ↦ ?_⟩
  obtain rfl := eq_of_shared hexp hshare hpoints hw hw'
  have hmagnitudes : |x - y| = |(|v| - |w'|)| := herror.trans (Exact.abs_error_self hop hd)
  exact ⟨rfl, hmagnitudes, hmagnitudes.trans_le (abs_abs_sub_abs_le v w')⟩

end Program

/-! ## A small constant times a great value -/

section Multiples

variable (α) [Scalar α]

/-- The horizontal coordinate times a constant within the tolerance from zero. -/
def smallMultiple : Expr α := .binary .mul (.var .x) (.const 1e-10)

/-- The horizontal coordinate times zero. -/
def zeroMultiple : Expr α := .binary .mul (.var .x) (.const 0)

/-- The magnitude of the one multiple, added to the other one. -/
def sumOfMultiples : Expr α :=
  .binary .add (.unary .abs (smallMultiple α)) (zeroMultiple α)

/-- The horizontal coordinate has a value that is great enough for a difference of one. -/
def atGreatValue : Context α := (Context.new 0).assign .x (.point 1e10)

variable {α}

private theorem zeroMultiple_sharesEqualTrees : (zeroMultiple α).SharesEqualTrees := by
  refine ⟨?_, ?_, ?_⟩ <;> rintro op a b - (h | h) <;> cases h

private theorem isPoint_atGreatValue (v : Variable) : ((atGreatValue ℚ).lookup v).IsPoint := by
  rw [atGreatValue, Context.lookup_assign, Context.lookup_new]
  split
  · exact ⟨le_refl (_ : ℚ), le_refl (_ : ℚ)⟩
  · exact ⟨le_refl (_ : ℚ), le_refl (_ : ℚ)⟩

/-- The multiples are nearly equal, but their magnitudes are apart by one: the two programs for the
sum do not agree up to rounding. -/
theorem sumOfMultiples_apart :
    (Program.compile (sumOfMultiples Float)).execute.outcome (atGreatValue Float) = .ok (.point 0) ∧
      ∃ x y : ℚ, (Program.compileDirect (sumOfMultiples ℚ)).execute.outcome (atGreatValue ℚ)
          = .ok (.point x) ∧
        (Program.compile (sumOfMultiples ℚ)).execute.outcome (atGreatValue ℚ) = .ok (.point y) ∧
        ¬Exact.AgreeUpToRounding x y := by
  obtain ⟨hshared, herror⟩ := Program.tolerance_shares_value .add (.inl rfl)
  obtain ⟨hbefore, -⟩ := hshared (smallMultiple Float) (zeroMultiple Float) (atGreatValue Float)
    (by decide +kernel)
  have hdirect : (Program.compileDirect (sumOfMultiples ℚ)).execute.outcome (atGreatValue ℚ)
      = .ok (.point 1) := by decide +kernel
  have hcompiled : (Program.compile (sumOfMultiples ℚ)).execute.outcome (atGreatValue ℚ)
      = .ok (.point 0) := by decide +kernel
  obtain ⟨v, w, w', x, y, d, hv, hw, -, hx, hy, -, -, hequal⟩ :=
    herror (smallMultiple ℚ) (zeroMultiple ℚ) (sumOfMultiples ℚ) (atGreatValue ℚ) (.point 1)
      (.point 0) (by decide +kernel) (.inl rfl) isPoint_atGreatValue hdirect hcompiled
  cases hx
  cases hy
  have hsmall : (Program.compileDirect (smallMultiple ℚ)).execute.outcome (atGreatValue ℚ)
      = .ok (.point 1) := by decide +kernel
  have hzero : (Program.compileDirect (zeroMultiple ℚ)).execute.outcome (atGreatValue ℚ)
      = .ok (.point 0) := by decide +kernel
  cases hsmall.symm.trans hv
  cases hzero.symm.trans hw
  -- The error is that of the magnitudes, since the other operand shares nothing.
  obtain ⟨-, hmagnitudes, -⟩ := hequal ⟨trivial, trivial, nofun⟩ zeroMultiple_sharesEqualTrees
  refine ⟨hbefore.trans (by decide +kernel), 1, 0, hdirect, hcompiled, ?_⟩
  rw [Exact.AgreeUpToRounding, hmagnitudes]
  norm_num

/-- In binary64 arithmetic, the optimized program loses the magnitude. -/
theorem sumOfMultiples_disagree :
    (smallMultiple Float).nearlyEquals (zeroMultiple Float) = true ∧
      (Program.compileDirect (sumOfMultiples Float)).execute.outcome (atGreatValue Float)
        = .ok (.point 1) ∧
      (Program.compile (sumOfMultiples Float)).execute.outcome (atGreatValue Float)
        = .ok (.point 0) := by
  refine ⟨?_, ?_, ?_⟩
  · decide +kernel
  · decide +kernel
  · decide +kernel

end Multiples

end ImplicitPlot
