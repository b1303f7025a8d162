import ImplicitPlot.Proofs.Interval.Points
import ImplicitPlot.Proofs.Machine.Bindings
import ImplicitPlot.Proofs.Machine.Compile
import ImplicitPlot.Proofs.Scalar.UnitPower
import ImplicitPlot.Proofs.Sequence

/-!
# Evaluation at a point

A formula can be evaluated in two ways where its variables have one value each: over the intervals
of these single values, or at the point. As long as all values are numbers, the two ways have the
same values, up to the signs of zeros, and the same faults (`Expr.matches_atPointGuarded`). This is
by induction on the formula, from what holds of operations, and the evaluation at the point makes
the checks in addition that powers of intervals make, `Expr.atPointGuarded`.

These checks matter to faults only. A result that is a number has been computed from numbers
(`Expr.staysNumber_of_value`), so it is the value of the formula at the point, with the checks and
without them.
-/

namespace ImplicitPlot

variable {α : Type} [Scalar α]

open Scalar

namespace Expr

/-- The value of a formula at a point, with the checks that powers of intervals make in addition. -/
def atPointGuarded (p : Variable → α) : Expr α → Except (Fault α) α
  | const c => .ok c
  | var v => .ok (p v)
  | unary op a => do
    let a ← a.atPointGuarded p
    return op.onNumber a
  | binary op a b => do
    let a ← a.atPointGuarded p
    let b ← b.atPointGuarded p
    op.onNumbersGuarded a b

/-- No power in the formula that is reached at the point is one that only intervals refuse. -/
def PowersClear (p : Variable → α) : Expr α → Prop
  | const _ | var _ => True
  | unary _ a => a.PowersClear p
  | binary op a b => a.PowersClear p ∧ ∀ v, a.atPoint p = .ok v →
      b.PowersClear p ∧ ∀ w, b.atPoint p = .ok w → op.IsClear v w

/-- Evaluation over intervals meets nothing that is not a number, as far as it goes. -/
def StaysNumber (vars : Variable → Interval α) : Expr α → Prop
  | const c => ¬IsNaN c
  | var v => ¬(vars v).HasNaN
  | unary op a => a.StaysNumber vars ∧ ∀ r, (unary op a).onIntervals vars = .ok r → ¬r.HasNaN
  | binary op a b => a.StaysNumber vars ∧ (∀ r, a.onIntervals vars = .ok r → b.StaysNumber vars) ∧
      ∀ r, (binary op a b).onIntervals vars = .ok r → ¬r.HasNaN

variable {vars : Variable → Interval α} {p : Variable → α} {e : Expr α}

theorem atPoint_of_guarded {v : α} (h : e.atPointGuarded p = .ok v) : e.atPoint p = .ok v := by
  induction e generalizing v with
  | const | var => exact h
  | unary op a ih =>
    obtain ⟨x, hx, hop⟩ := exists_of_bind_eq_ok h
    exact bind_eq_ok (ih hx) hop
  | binary op a b iha ihb =>
    obtain ⟨x, hx, hrest⟩ := exists_of_bind_eq_ok h
    obtain ⟨y, hy, hop⟩ := exists_of_bind_eq_ok hrest
    exact bind_eq_ok (iha hx) (bind_eq_ok (ihb hy) (BinaryOp.onNumbers_of_guarded hop))

/-- Where no power is refused by intervals only, the checks change nothing. -/
theorem PowersClear.atPointGuarded_eq (h : e.PowersClear p) :
    e.atPointGuarded p = e.atPoint p := by
  induction e with
  | const | var => rfl
  | unary op a ih =>
    rw [atPointGuarded, ih h]
    rfl
  | binary op a b iha ihb =>
    obtain ⟨ha, hb⟩ := h
    rw [atPointGuarded, atPoint, iha ha]
    cases hv : a.atPoint p with
    | error f => rfl
    | ok v =>
      obtain ⟨hb, hclear⟩ := hb v hv
      rw [ihb hb]
      cases hw : b.atPoint p with
      | error f => rfl
      | ok w => exact (hclear w hw).onNumbersGuarded_eq

theorem StaysNumber.not_hasNaN {r : Interval α} (h : e.StaysNumber vars)
    (hr : e.onIntervals vars = .ok r) : ¬r.HasNaN := by
  match e, h with
  | const c, h =>
    cases hr
    exact mt Interval.hasNaN_point.mp h
  | var v, h =>
    cases hr
    exact h
  | unary op a, h => exact h.2 r hr
  | binary op a b, h => exact h.2.2 r hr

/-- A value leaves no room for operands without values, so all that led to it were numbers. By
induction on the formula. -/
theorem staysNumber_of_value [Lawful α] [OrderedSums α] {r : Interval α}
    (h : e.onIntervals vars = .ok r) (hr : ¬r.HasNaN) : e.StaysNumber vars := by
  have hself {x : Except (Fault α) (Interval α)} {r : Interval α} (h : x = .ok r)
      (hr : ¬r.HasNaN) : ∀ r', x = .ok r' → ¬r'.HasNaN := by
    intro r' h'
    cases h.symm.trans h'
    exact hr
  induction e generalizing r with
  | const c =>
    cases h
    exact mt Interval.hasNaN_point.mpr hr
  | var v =>
    cases h
    exact hr
  | unary op a ih =>
    obtain ⟨x, hx, hop⟩ := exists_of_bind_eq_ok h
    exact ⟨ih hx fun hnan ↦ hr (UnaryOp.hasNaN_of_onInterval hop hnan), hself h hr⟩
  | binary op a b iha ihb =>
    obtain ⟨x, hx, hrest⟩ := exists_of_bind_eq_ok h
    obtain ⟨y, hy, hop⟩ := exists_of_bind_eq_ok hrest
    have ha := iha hx fun hnan ↦ hr (BinaryOp.hasNaN_of_onIntervals hop (.inl hnan))
    have hb := ihb hy fun hnan ↦ hr (BinaryOp.hasNaN_of_onIntervals hop (.inr hnan))
    exact ⟨ha, fun _ _ ↦ hb, hself h hr⟩

variable [Lawful α] [SizeDetermined α]

/-- **Evaluation over single values fails as guarded evaluation at the point does**, as long as
values are numbers. By induction on the formula, which follows the operands from left to right. -/
theorem matches_atPointGuarded (hp : ∀ v, vars v = .point (p v)) (hnum : e.StaysNumber vars) :
    Interval.Matches (e.onIntervals vars) (e.atPointGuarded p) := by
  induction e with
  | const c => exact .inr ⟨c, rfl, agree_self hnum⟩
  | var v =>
    have hnumber : ¬IsNaN (p v) := by
      have hv : ¬(vars v).HasNaN := hnum
      rwa [hp, Interval.hasNaN_point] at hv
    exact .inr ⟨p v, hp v, agree_self hnumber⟩
  | unary op a ih =>
    rw [onIntervals, atPointGuarded]
    obtain ⟨f, hx, hv⟩ | ⟨w, v, hx, hv, hwv⟩ :=
      (ih hnum.1).eq_error_or_agree fun _ ↦ hnum.1.not_hasNaN
    · rw [hx, hv]
      exact rfl
    · rw [hx, hv]
      exact op.matches_onNumber hwv
  | binary op a b iha ihb =>
    obtain ⟨ha, hb, -⟩ := hnum
    rw [onIntervals, atPointGuarded]
    obtain ⟨f, hx, hv⟩ | ⟨w, v, hx, hv, hwv⟩ :=
      (iha ha).eq_error_or_agree fun _ ↦ ha.not_hasNaN
    · rw [hx, hv]
      exact rfl
    rw [hx, hv]
    have hb := hb _ hx
    obtain ⟨f, hy, hv'⟩ | ⟨w', v', hy, hv', hwv'⟩ :=
      (ihb hb).eq_error_or_agree fun _ ↦ hb.not_hasNaN
    · change Interval.Matches (b.onIntervals vars >>= _) (b.atPointGuarded p >>= _)
      rw [hy, hv']
      exact rfl
    · change Interval.Matches (b.onIntervals vars >>= _) (b.atPointGuarded p >>= _)
      rw [hy, hv']
      exact op.matches_onNumbersGuarded hwv hwv'

/-- **Evaluation over single values is evaluation at the point**, where it gives a value. -/
theorem exists_atPointGuarded [OrderedSums α] {r : Interval α} (hp : ∀ v, vars v = .point (p v))
    (h : e.onIntervals vars = .ok r) (hr : ¬r.HasNaN) :
    ∃ w v, r = .point w ∧ e.atPointGuarded p = .ok v ∧ Agree w v := by
  have hnum := staysNumber_of_value h hr
  obtain ⟨f, hf, -⟩ | ⟨w, v, hw, hv, hagree⟩ :=
    (matches_atPointGuarded hp hnum).eq_error_or_agree fun _ ↦ hnum.not_hasNaN
  · cases h.symm.trans hf
  · cases h.symm.trans hw
    exact ⟨w, v, rfl, hv, hagree⟩

end Expr

/-! ## Programs at points -/

/-- **At points the program of a formula gives the value of the formula.** In binary64 arithmetic,
and with any power that is as it should be at zeros: if the direct program has a result where every
variable is a single value, then the formula has a value at that point, and both bounds of the
result are that value, up to the sign of a zero. -/
theorem program_at_point_gives_value (pow : Float → Float → Float)
    (hpow : Binary64.PowersOfZero pow) (e : Expr Float) (p : Variable → Float) (c : Context Float)
    (hc : ∀ v, c.lookup v = .point (p v)) :
    letI := Binary64.arithmetic pow
    ∀ I, (Program.compileDirect e).execute.outcome c = .ok I → ¬I.HasNaN →
      ∃ v, e.atPoint p = .ok v ∧ Agree I.lower v ∧ Agree I.upper v := by
  let := Binary64.arithmetic pow
  have := Binary64.lawful pow
  have := Binary64.orderedSums pow
  have := Binary64.sizeDetermined hpow
  intro I hI hnumber
  rw [Program.outcome_compileDirect] at hI
  obtain ⟨w, v, rfl, hv, hagree⟩ := Expr.exists_atPointGuarded hc hI hnumber
  exact ⟨v, Expr.atPoint_of_guarded hv, hagree, hagree⟩

/-- A context in which one variable is minus one, and another one is the negative zero. -/
def minusOneAndZero : Context Float :=
  ((Context.new 0).assign .x (.point (-1))).assign .y (.point (-0))

theorem lookup_minusOneAndZero (v : Variable) :
    minusOneAndZero.lookup v = .point (minusOneAndZero.lookup v).lower := by
  have hpoints : ∀ i : Fin Variable.count,
      minusOneAndZero.lookup ⟨i⟩ = .point (minusOneAndZero.lookup ⟨i⟩).lower := by
    decide +kernel
  exact hpoints v.index

/-- The magnitude of a zero, divided by a cube. -/
def zeroPerCube : Expr Float :=
  .binary .div (.unary .abs (.var .y)) (.binary .pow (.var .x) (.const 3))

/-- The program keeps the sign of the zero, and the formula drops it. -/
theorem zeroPerCube_at_point :
    letI := Binary64.arithmetic Binary64.unitPower
    (Program.compileDirect zeroPerCube).execute.outcome minusOneAndZero = .ok (.point 0) ∧
      ∃ v, zeroPerCube.atPoint (fun v ↦ (minusOneAndZero.lookup v).lower) = .ok v ∧
        Agree 0 v ∧ Agree 0 v := by
  let := Binary64.arithmetic Binary64.unitPower
  have hprogram : (Program.compileDirect zeroPerCube).execute.outcome minusOneAndZero
      = .ok (.point 0) := by
    decide +kernel
  exact ⟨hprogram, program_at_point_gives_value Binary64.unitPower Binary64.powersOfZero_unitPower
    zeroPerCube _ minusOneAndZero lookup_minusOneAndZero (.point 0) hprogram (by decide +kernel)⟩

/-- **Where programs and formulas fail alike at points.** The direct program has the faults of the
formula with the checks that powers of intervals make in addition, as long as all values are
numbers. So it has the faults of the formula itself unless a power is reached that only intervals
refuse. -/
theorem program_at_point_faults (pow : Float → Float → Float)
    (hpow : Binary64.PowersOfZero pow) (e : Expr Float) (p : Variable → Float) (c : Context Float)
    (hc : ∀ v, c.lookup v = .point (p v)) :
    letI := Binary64.arithmetic pow
    e.StaysNumber c.lookup → ∀ f,
      ((Program.compileDirect e).execute.outcome c = .error f ↔ e.atPointGuarded p = .error f) ∧
      (e.PowersClear p →
        ((Program.compileDirect e).execute.outcome c = .error f ↔ e.atPoint p = .error f)) := by
  let := Binary64.arithmetic pow
  have := Binary64.lawful pow
  have := Binary64.sizeDetermined hpow
  intro hnum f
  have hmatches := Expr.matches_atPointGuarded hc hnum
  rw [Program.outcome_compileDirect]
  refine ⟨hmatches.eq_error_iff, fun hclear ↦ ?_⟩
  rw [← hclear.atPointGuarded_eq]
  exact hmatches.eq_error_iff

/-- A cube, divided by a zero. -/
def cubePerZero : Expr Float :=
  .binary .div (.binary .pow (.var .x) (.const 3)) (.var .y)

theorem cubePerZero_at_point :
    letI := Binary64.arithmetic Binary64.unitPower
    (Program.compileDirect cubePerZero).execute.outcome minusOneAndZero = .error .divisionByZero ∧
      cubePerZero.atPoint (fun v ↦ (minusOneAndZero.lookup v).lower) = .error .divisionByZero := by
  let := Binary64.arithmetic Binary64.unitPower
  have hcube : (Expr.binary .pow (.var .x) (.const 3)).onIntervals minusOneAndZero.lookup
      = .ok (.point (-1)) := by
    decide +kernel
  have hfault : (Program.compileDirect cubePerZero).execute.outcome minusOneAndZero
      = .error .divisionByZero := by
    decide +kernel
  have hnumber : cubePerZero.StaysNumber minusOneAndZero.lookup := by
    refine ⟨⟨?_, fun _ _ ↦ ?_, fun r hr ↦ ?_⟩, fun _ _ ↦ ?_, fun r hr ↦ ?_⟩
    · rw [Expr.StaysNumber]
      decide +kernel
    · rw [Expr.StaysNumber]
      decide +kernel
    · cases hcube.symm.trans hr
      decide +kernel
    · rw [Expr.StaysNumber]
      decide +kernel
    · rw [Program.outcome_compileDirect] at hfault
      cases hfault.symm.trans hr
  have hclear : cubePerZero.PowersClear fun v ↦ (minusOneAndZero.lookup v).lower := by
    refine ⟨⟨trivial, ?_⟩, fun _ _ ↦ ⟨trivial, fun _ _ ↦ nofun⟩⟩
    rintro v ⟨⟩
    refine ⟨trivial, ?_⟩
    rintro w ⟨⟩ -
    decide +kernel
  exact ⟨hfault, ((program_at_point_faults Binary64.unitPower Binary64.powersOfZero_unitPower
    cubePerZero _ minusOneAndZero lookup_minusOneAndZero hnumber _).2 hclear).mp hfault⟩

/-- A variable to the power of minus one. -/
def reciprocalPower : Expr Float := .binary .pow (.var .x) (.const (-1))

/-- At zero the reciprocal is refused over single values, and at the point it is infinity, although
all values are numbers: evaluation at the point misses a fault of evaluation over intervals. -/
theorem reciprocalPower_misses_fault :
    letI := Binary64.arithmetic Binary64.unitPower
    (∀ v, (Context.new 0 : Context Float).lookup v = .point 0) ∧
      reciprocalPower.StaysNumber (Context.new 0).lookup ∧
      (Program.compileDirect reciprocalPower).execute.outcome (.new 0) = .error .divisionByZero ∧
      reciprocalPower.atPoint (fun _ ↦ 0) = .ok Binary64.infinity ∧ ¬IsNaN Binary64.infinity := by
  let := Binary64.arithmetic Binary64.unitPower
  have hfault : reciprocalPower.onIntervals (Context.new 0).lookup = .error .divisionByZero := by
    decide +kernel
  refine ⟨Context.lookup_new 0, ⟨?_, fun _ _ ↦ ?_, fun r hr ↦ ?_⟩, ?_, by decide +kernel,
    by decide +kernel⟩
  · rw [Expr.StaysNumber, Context.lookup_new]
    decide +kernel
  · rw [Expr.StaysNumber]
    decide +kernel
  · cases hfault.symm.trans hr
  · rw [Program.outcome_compileDirect]
    exact hfault

end ImplicitPlot
