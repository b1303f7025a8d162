import ImplicitPlot.Formula.Point
import ImplicitPlot.Proofs.Interval.SingleValues

/-!
# Operations at points

Applied to intervals of a single value, an operation does what it does to numbers: it has the same
fault, or it gives the interval of a single value, of the size of the result on numbers
(`Interval.Matches`). The sign of a zero may differ, since a magnitude of a zero is the zero itself
there, so sizes are all that is kept.

Two powers are refused on intervals but not on numbers: that of a zero to a negative exponent, and
that of a negative base to an infinite exponent. With these two checks in addition, an operation on
numbers is `BinaryOp.onNumbersGuarded`.
-/

namespace ImplicitPlot

variable {α : Type} [Scalar α]

open Scalar

/-- The operation on two numbers, with the checks that a power of intervals makes in addition. -/
def BinaryOp.onNumbersGuarded : BinaryOp → α → α → Except (Fault α) α
  | .pow, a, b =>
    if b < 0 ∧ Agree a 0 then .error .divisionByZero
    else if a < 0 ∧ ¬IsFinite b then .error .nonIntegerExponent
    else BinaryOp.pow.onNumbers a b
  | op, a, b => op.onNumbers a b

theorem BinaryOp.onNumbers_of_guarded {op : BinaryOp} {a b v : α}
    (h : op.onNumbersGuarded a b = .ok v) : op.onNumbers a b = .ok v := by
  cases op with
  | add | sub | mul | div => exact h
  | pow =>
    rw [onNumbersGuarded] at h
    split at h
    · cases h
    split at h
    · cases h
    · exact h

/-- The power is one that both intervals and numbers have, or that both refuse. -/
def BinaryOp.IsClear (op : BinaryOp) (a b : α) : Prop :=
  op = .pow → ¬(b < 0 ∧ Agree a 0) ∧ ¬(a < 0 ∧ ¬IsFinite b)

theorem BinaryOp.IsClear.onNumbersGuarded_eq {op : BinaryOp} {a b : α} (h : op.IsClear a b) :
    op.onNumbersGuarded a b = op.onNumbers a b := by
  cases op with
  | add | sub | mul | div => rfl
  | pow =>
    obtain ⟨hzero, hinfinite⟩ := h rfl
    rw [onNumbersGuarded, if_neg hzero, if_neg hinfinite]

namespace Interval

/-- What is computed for an interval is what is computed for a number: the same fault, or the
interval of a single value of the same size, unless there are no values. -/
def Matches : Except (Fault α) (Interval α) → Except (Fault α) α → Prop
  | .ok r, .ok v => r.HasNaN ∨ ∃ w, r = point w ∧ Agree w v
  | .error f, .error g => f = g
  | _, _ => False

/-- Both fail alike, or both have a value, if the interval has one. -/
theorem Matches.eq_error_or_agree {x : Except (Fault α) (Interval α)} {y : Except (Fault α) α}
    (h : Matches x y) (hx : ∀ r, x = .ok r → ¬r.HasNaN) :
    (∃ f, x = .error f ∧ y = .error f) ∨ ∃ w v, x = .ok (point w) ∧ y = .ok v ∧ Agree w v := by
  match x, y, h with
  | .ok r, .ok v, h =>
    obtain ⟨w, rfl, hagree⟩ := h.resolve_left (hx r rfl)
    exact .inr ⟨w, v, rfl, rfl, hagree⟩
  | .error f, .error _, rfl => exact .inl ⟨f, rfl, rfl⟩

theorem Matches.eq_error_iff {x : Except (Fault α) (Interval α)} {y : Except (Fault α) α}
    (h : Matches x y) {f : Fault α} : x = .error f ↔ y = .error f := by
  match x, y, h with
  | .ok _, .ok _, _ => simp
  | .error _, .error _, rfl => simp

variable {v w w' : α}

@[simp] theorem hasNaN_point : (point v).HasNaN ↔ IsNaN v := or_self_iff

theorem matches_checked (h : Agree w v) (hw : w ≤ w) : Matches (checked w w) (.ok v) := by
  rw [checked, if_pos (.inl hw)]
  exact .inr ⟨w, rfl, h⟩

section Lawful

variable [Lawful α]

theorem hasNaN_undefined (h : IsNaN v) : (undefined : Interval α).HasNaN :=
  .inl (Lawful.isNaN_nan h)

theorem matches_ofBounds (h : ¬IsNaN w → Agree w v) : Matches (ofBounds w w) (.ok v) := by
  rw [ofBounds]
  by_cases hw : IsNaN w
  · rw [if_pos (.inl hw)]
    exact .inl (hasNaN_undefined hw)
  · rw [if_neg (not_or.mpr ⟨hw, hw⟩)]
    exact matches_checked (h hw) (not_not.mp hw)

theorem matches_overCorners {f : α → α → α} (h : ¬IsNaN (f w w') → Agree (f w w') v) :
    Matches (overCorners f (point w) (point w')) (.ok v) := by
  have hofBounds : overCorners f (point w) (point w') = ofBounds (f w w') (f w w') := by
    simp only [overCorners, ofBounds, point, or_self, minNum_self, maxNum_self]
  rw [hofBounds]
  exact matches_ofBounds h

private theorem matches_abs (h : Agree w v) : Matches (point w).abs (.ok (Scalar.abs v)) := by
  obtain ⟨hw, -⟩ := h.not_isNaN
  have hside := IsSingle.not_straddling ⟨w, rfl⟩
  rw [abs]
  by_cases hneg : (point w).lower < 0
  · rw [if_pos hneg, if_neg fun hpos ↦ hside ⟨hneg, hpos⟩]
    have habs := (Lawful.abs_of_nonpos (le_of_lt hneg)).symm.trans h.abs
    exact matches_checked habs (not_not.mp habs.not_isNaN.1)
  · rw [if_neg hneg]
    have hnonneg : 0 ≤ w := le_of_not_lt hw not_isNaN_zero hneg
    exact .inr ⟨w, rfl, (Lawful.abs_of_nonneg hnonneg).symm.trans h.abs⟩

theorem isZero_point_iff (h : Agree w v) : (point w).IsZero ↔ Scalar.abs v ≤ zeroTolerance := by
  have htolerance := agree_self (not_isNaN_zeroTolerance (α := α))
  rw [← h.abs.le_iff htolerance, abs_le_iff h.not_isNaN.1]
  exact Iff.rfl

theorem not_hasNaN_point {v' : α} (h : Agree w v) (h' : Agree w' v') :
    ¬((point w).HasNaN ∨ (point w').HasNaN) := by
  rw [hasNaN_point, hasNaN_point, not_or]
  exact ⟨h.not_isNaN.1, h'.not_isNaN.1⟩

/-! ## Quotients and powers -/

section SizeDetermined

variable [SizeDetermined α] {v' : α}

private theorem matches_div (h : Agree w v) (h' : Agree w' v') :
    Matches ((point w).div (point w')) (BinaryOp.div.onNumbers v v') := by
  have hzero := isZero_point_iff h'
  rw [div, BinaryOp.onNumbers]
  by_cases hsmall : Scalar.abs v' ≤ zeroTolerance
  · rw [if_pos (hzero.mpr hsmall), if_pos hsmall]
    exact rfl
  · have hdivisor : ¬Agree w' 0 := by
      intro hw
      refine hsmall (hzero.mp ⟨?_, ?_⟩)
      · exact Lawful.le_trans hw.1 (le_of_lt Lawful.zeroTolerance_pos)
      · exact Lawful.le_trans (le_of_lt neg_zeroTolerance_neg) hw.2
    rw [if_neg (mt hzero.mp hsmall), if_neg (not_hasNaN_point h h'), if_neg hsmall]
    exact matches_overCorners (SizeDetermined.div_agree h h' hdivisor)

theorem isFinite_congr (h : Agree w v) : IsFinite w ↔ IsFinite v := by
  constructor
  · exact fun hw ↦ (SizeDetermined.sub_agree h h hw).not_isNaN.2
  · exact fun hv ↦ (SizeDetermined.sub_agree h.symm h.symm hv).not_isNaN.2

private theorem asInteger?_point_eq (h : Agree w v) : (point w).asInteger?
    = if IsFinite v ∧ ¬zeroTolerance < Scalar.abs (v - round v) then some (round w) else none := by
  have htolerance := agree_self (not_isNaN_zeroTolerance (α := α))
  simp only [asInteger?, point, and_self]
  refine if_congr ?_ rfl rfl
  rw [← isFinite_congr h]
  constructor
  · rintro ⟨hwidth, hnear⟩
    have hfinite : IsFinite w := (Lawful.not_isNaN_of_le hwidth).1
    have hdistance := SizeDetermined.sub_agree h (SizeDetermined.round_agree h)
      (SizeDetermined.not_isNaN_sub_round hfinite)
    exact ⟨hfinite, not_lt_of_le ((hdistance.abs.le_iff htolerance).mp hnear)⟩
  · rintro ⟨hfinite, hnear⟩
    have hdistance := SizeDetermined.sub_agree h (SizeDetermined.round_agree h)
      (SizeDetermined.not_isNaN_sub_round hfinite)
    have hle := le_of_not_lt (not_isNaN_zeroTolerance) hdistance.abs.not_isNaN.2 hnear
    refine ⟨?_, (hdistance.abs.le_iff htolerance).mpr hle⟩
    exact Lawful.le_trans (Lawful.sub_self hfinite).1 (le_of_lt Lawful.zeroTolerance_pos)

private theorem matches_powNonpositive (h : Agree w v) (h' : Agree w' v') (hneg : v < 0) :
    Matches ((point w).powNonpositive (point w')) (BinaryOp.pow.onNumbersGuarded v v') := by
  have hzero := agree_self (not_isNaN_zero (α := α))
  have hbase (x : α) : ¬(x < 0 ∧ Agree w 0) :=
    fun hx ↦ not_le_of_lt ((h.lt_iff hzero).mpr hneg) hx.2.2
  have hpole : ¬(v' < 0 ∧ Agree v 0) := fun hx ↦ not_le_of_lt hneg hx.2.2
  rw [powNonpositive, asInteger?_point_eq h', BinaryOp.onNumbersGuarded, if_neg hpole]
  by_cases hfinite : IsFinite v'
  · have hguard : ¬(v < 0 ∧ ¬IsFinite v') := fun hinfinite ↦ hinfinite.2 hfinite
    rw [if_neg hguard, BinaryOp.onNumbers, if_pos hneg]
    by_cases hfar : zeroTolerance < Scalar.abs (v' - round v')
    · have hnone : ¬(IsFinite v' ∧ ¬zeroTolerance < Scalar.abs (v' - round v')) :=
        fun hnear ↦ hnear.2 hfar
      rw [if_neg hnone, if_pos hfar]
      exact rfl
    · rw [if_pos ⟨hfinite, hfar⟩, if_neg hfar]
      -- Whichever bound is taken first, it is the same one.
      simp only [point, ite_self, minNum_self, maxNum_self]
      exact matches_ofBounds
        (SizeDetermined.pow_agree h (SizeDetermined.round_agree h') (hbase _))
  · have hnone : ¬(IsFinite v' ∧ ¬zeroTolerance < Scalar.abs (v' - round v')) :=
      fun hnear ↦ hfinite hnear.1
    rw [if_neg hnone, if_pos ⟨hneg, hfinite⟩]
    exact rfl

private theorem matches_pow (h : Agree w v) (h' : Agree w' v') :
    Matches ((point w).pow (point w')) (BinaryOp.pow.onNumbersGuarded v v') := by
  have hzero := agree_self (not_isNaN_zero (α := α))
  have hcontains : (point w').lower < 0 ∧ (point w).Contains 0 ↔ v' < 0 ∧ Agree v 0 :=
    and_congr (h'.lt_iff hzero) (and_congr (h.le_iff hzero) (hzero.le_iff h))
  rw [pow, if_neg (not_hasNaN_point h h')]
  by_cases hpole : v' < 0 ∧ Agree v 0
  · rw [if_pos (hcontains.mpr hpole), BinaryOp.onNumbersGuarded, if_pos hpole]
    exact rfl
  rw [if_neg (mt hcontains.mp hpole), if_neg (IsSingle.not_straddling ⟨w, rfl⟩)]
  by_cases hneg : v < 0
  · have hlower : ¬0 ≤ (point w).lower := not_le_of_lt ((h.lt_iff hzero).mpr hneg)
    rw [if_neg hlower]
    exact matches_powNonpositive h h' hneg
  · have hlower : 0 ≤ (point w).lower := (hzero.le_iff h).mpr
      (le_of_not_lt h.not_isNaN.2 not_isNaN_zero hneg)
    have hguard : ¬(v < 0 ∧ ¬IsFinite v') := fun hbase ↦ hneg hbase.1
    rw [if_pos hlower, BinaryOp.onNumbersGuarded, if_neg hpole, if_neg hguard,
      BinaryOp.onNumbers, if_neg hneg]
    exact matches_overCorners (SizeDetermined.pow_agree h h' (mt hcontains.mp hpole))

end SizeDetermined

end Lawful

end Interval

/-! ## Intervals without values -/

section HasNaN

variable [Lawful α] {a b r : Interval α}

namespace Interval

theorem hasNaN_of_ofBounds {lower upper : α} (h : ofBounds lower upper = .ok r)
    (hnan : IsNaN lower ∨ IsNaN upper) : r.HasNaN := by
  rw [ofBounds, if_pos hnan] at h
  cases h
  exact hnan.elim hasNaN_undefined hasNaN_undefined

theorem hasNaN_of_ite_hasNaN {x : Except (Fault α) (Interval α)}
    (h : (if a.HasNaN ∨ b.HasNaN then .ok undefined else x) = .ok r)
    (hnan : a.HasNaN ∨ b.HasNaN) : r.HasNaN := by
  rw [if_pos hnan] at h
  cases h
  exact hnan.elim (·.elim hasNaN_undefined hasNaN_undefined)
    (·.elim hasNaN_undefined hasNaN_undefined)

theorem hasNaN_of_abs (h : a.abs = .ok r) (hnan : a.HasNaN) : r.HasNaN := by
  rw [abs] at h
  split at h
  next hlower =>
    have hnumber : ¬IsNaN a.lower := (Lawful.not_isNaN_of_le (le_of_lt hlower)).1
    have hupper : IsNaN a.upper := hnan.resolve_left hnumber
    have hpos : ¬0 < a.upper := fun hlt ↦ (Lawful.not_isNaN_of_le (le_of_lt hlt)).2 hupper
    -- One bound that is not a number is refused.
    have hinvalid : ¬Valid ⟨-a.upper, -a.lower⟩ := by
      rintro (hle | ⟨-, hneg⟩)
      · exact (Lawful.not_isNaN_of_le hle).1 (isNaN_neg_iff.mpr hupper)
      · exact hnumber (isNaN_neg_iff.mp hneg)
    rw [if_neg hpos, checked, if_neg hinvalid] at h
    cases h
  next =>
    cases h
    exact hnan

end Interval

/-- Without a value of its operand an operation gives no value. -/
theorem UnaryOp.hasNaN_of_onInterval {op : UnaryOp} (h : op.onInterval a = .ok r)
    (hnan : a.HasNaN) : r.HasNaN := by
  cases op with
  | neg =>
    exact Interval.hasNaN_of_ofBounds h (hnan.symm.imp isNaN_neg_iff.mpr isNaN_neg_iff.mpr)
  | abs => exact Interval.hasNaN_of_abs h hnan

theorem BinaryOp.hasNaN_of_onIntervals [OrderedSums α] {op : BinaryOp}
    (h : op.onIntervals a b = .ok r) (hnan : a.HasNaN ∨ b.HasNaN) : r.HasNaN := by
  cases op with
  | add =>
    refine Interval.hasNaN_of_ofBounds h (by_contra fun hnumbers ↦ ?_)
    obtain ⟨hlower, hupper⟩ := not_or.mp hnumbers
    obtain ⟨hal, hbl⟩ := OrderedSums.not_isNaN_of_add hlower
    obtain ⟨hau, hbu⟩ := OrderedSums.not_isNaN_of_add hupper
    exact hnan.elim (not_or.mpr ⟨hal, hau⟩) (not_or.mpr ⟨hbl, hbu⟩)
  | sub =>
    refine Interval.hasNaN_of_ofBounds h (by_contra fun hnumbers ↦ ?_)
    obtain ⟨hlower, hupper⟩ := not_or.mp hnumbers
    obtain ⟨hal, hbu⟩ := OrderedSums.not_isNaN_of_sub hlower
    obtain ⟨hau, hbl⟩ := OrderedSums.not_isNaN_of_sub hupper
    exact hnan.elim (not_or.mpr ⟨hal, hau⟩) (not_or.mpr ⟨hbl, hbu⟩)
  | mul => exact Interval.hasNaN_of_ite_hasNaN h hnan
  | div =>
    rw [onIntervals, Interval.div] at h
    by_cases hzero : b.IsZero
    · rw [if_pos hzero] at h
      cases h
    · rw [if_neg hzero] at h
      exact Interval.hasNaN_of_ite_hasNaN h hnan
  | pow => exact Interval.hasNaN_of_ite_hasNaN h hnan

end HasNaN

/-! ## All operations -/

variable [Lawful α] {v v' w w' : α}

theorem UnaryOp.matches_onNumber (op : UnaryOp) (h : Agree w v) :
    Interval.Matches (op.onInterval (.point w)) (.ok (op.onNumber v)) := by
  cases op with
  | neg => exact Interval.matches_ofBounds fun _ ↦ h.neg
  | abs => exact Interval.matches_abs h

/-- **Operations at points are operations on numbers**, up to the signs of zeros. -/
theorem BinaryOp.matches_onNumbersGuarded [SizeDetermined α] (op : BinaryOp) (h : Agree w v)
    (h' : Agree w' v') :
    Interval.Matches (op.onIntervals (.point w) (.point w')) (op.onNumbersGuarded v v') := by
  cases op with
  | add => exact Interval.matches_ofBounds (SizeDetermined.add_agree h h')
  | sub => exact Interval.matches_ofBounds (SizeDetermined.sub_agree h h')
  | mul =>
    rw [onIntervals, Interval.mul, if_neg (Interval.not_hasNaN_point h h')]
    exact Interval.matches_overCorners (SizeDetermined.mul_agree h h')
  | div => exact Interval.matches_div h h'
  | pow => exact Interval.matches_pow h h'

end ImplicitPlot
