import ImplicitPlot.Proofs.Interval.Answers
import ImplicitPlot.Proofs.Interval.Operations

/-!
# Operations keep inclusions

If operands become narrower, an operation that succeeded still succeeds, and its result becomes
narrower. Both bounds of a result are values at bounds of the operands (`BinaryOp.IsCorner`); these
bounds lie in the wider operands as well, so the wider result encloses them. Thus the inclusion
comes from enclosure, and no operation is looked into twice.

A magnitude may have a bound that is none at a bound of its operand, the zero between values of both
signs. Powers, for which the same happens, have a file of their own.
-/

namespace ImplicitPlot

variable {α : Type} [Scalar α]

open Scalar

namespace Interval

/-- The values of the one interval are values of the other. -/
def Within (a b : Interval α) : Prop := b.lower ≤ a.lower ∧ a.upper ≤ b.upper

/-- The value is one of the two bounds. -/
def IsBound (a : Interval α) (v : α) : Prop := v = a.lower ∨ v = a.upper

section Lawful

variable [Lawful α] {a b r : Interval α} {v : α}

theorem Within.contains (h : a.Within b) (hv : a.Contains v) : b.Contains v :=
  ⟨Lawful.le_trans h.1 hv.1, Lawful.le_trans hv.2 h.2⟩

/-- A divisor that touches zero still does so when it becomes wider. -/
theorem IsZero.mono (ha : a.IsZero) (h : a.Within b) : b.IsZero :=
  ⟨Lawful.le_trans h.1 ha.1, Lawful.le_trans ha.2 h.2⟩

omit [Lawful α] in
/-- The bounds of a valid interval are in order, unless they are not numbers. -/
theorem Valid.lower_le_upper_of (ha : a.Valid) (h : ¬IsNaN a.lower ∨ ¬IsNaN a.upper) :
    a.lower ≤ a.upper := by
  refine ha.resolve_right ?_
  rintro ⟨hlower, hupper⟩
  exact h.elim (absurd hlower) (absurd hupper)

theorem Valid.lower_le_upper (ha : a.Valid) (hb : a.IsBounded) : a.lower ≤ a.upper :=
  ha.lower_le_upper_of (.inl (Lawful.not_isNaN_of_isFinite hb.1))

theorem Valid.contains_of_isBound (ha : a.Valid) (hb : a.IsBounded) (hv : a.IsBound v) :
    a.Contains v := by
  have hle := ha.lower_le_upper hb
  rcases hv with rfl | rfl
  · exact ⟨le_refl_of_isFinite hb.1, hle⟩
  · exact ⟨hle, le_refl_of_isFinite hb.2⟩

omit [Lawful α] in
theorem IsBounded.isFinite_of_isBound (hb : a.IsBounded) (hv : a.IsBound v) : IsFinite v := by
  rcases hv with rfl | rfl
  · exact hb.1
  · exact hb.2

/-! ## Operations that succeed -/

omit [Lawful α] in
theorem exists_checked {lower upper : α} (h : lower ≤ upper) :
    ∃ r, checked lower upper = .ok r := by
  rw [checked, if_pos (.inl h)]
  exact ⟨_, rfl⟩

omit [Lawful α] in
theorem exists_ofBounds {lower upper : α} (h : ¬IsNaN lower → ¬IsNaN upper → lower ≤ upper) :
    ∃ r, ofBounds lower upper = .ok r := by
  rw [ofBounds]
  split
  · exact ⟨_, rfl⟩
  next hnan =>
    obtain ⟨hlower, hupper⟩ := not_or.mp hnan
    exact exists_checked (h hlower hupper)

theorem exists_overCorners (f : α → α → α) (a b : Interval α) :
    ∃ r, overCorners f a b = .ok r := by
  simp only [overCorners]
  split
  · exact ⟨_, rfl⟩
  next hnan =>
    rw [not_or, not_or, not_or] at hnan
    obtain ⟨hp, hq, hs, ht⟩ := hnan
    generalize f a.lower b.lower = p at *
    generalize f a.lower b.upper = q at *
    generalize f a.upper b.lower = s at *
    generalize f a.upper b.upper = t at *
    -- The last corner is between the extremes of all four.
    have hmin := (minNum_le (not_isNaN_minNum (not_isNaN_minNum hp hq) hs) ht).2
    have hmax := (le_maxNum (not_isNaN_maxNum (not_isNaN_maxNum hp hq) hs) ht).2
    exact exists_checked (Lawful.le_trans hmin hmax)

theorem exists_neg (ha : a.Valid) : ∃ r, a.neg = .ok r := by
  refine exists_ofBounds fun hupper _ ↦ ?_
  rw [isNaN_neg_iff] at hupper
  exact Lawful.neg_le_neg (ha.lower_le_upper_of (.inr hupper))

theorem exists_abs (ha : a.Valid) : ∃ r, a.abs = .ok r := by
  rw [abs]
  split
  next hlower =>
    have hnumber : ¬IsNaN a.lower := (Lawful.not_isNaN_of_le (le_of_lt hlower)).1
    split
    next hupper =>
      have hnumber' : ¬IsNaN a.upper := (Lawful.not_isNaN_of_le (le_of_lt hupper)).2
      have hmax := (le_maxNum hnumber' (mt isNaN_neg_iff.mp hnumber)).1
      exact exists_checked (Lawful.le_trans (le_of_lt hupper) hmax)
    next => exact exists_checked (Lawful.neg_le_neg (ha.lower_le_upper_of (.inl hnumber)))
  next => exact ⟨a, rfl⟩

theorem exists_mul (a b : Interval α) : ∃ r, a.mul b = .ok r := by
  rw [mul]
  split
  · exact ⟨_, rfl⟩
  · exact exists_overCorners _ a b

theorem exists_div (h : ¬b.IsZero) : ∃ r, a.div b = .ok r := by
  rw [div, if_neg h]
  split
  · exact ⟨_, rfl⟩
  · exact exists_overCorners _ a b

section Arithmetic

variable [OrderPreserving α]

theorem exists_add (ha : a.Valid) (hba : a.IsBounded) (hb : b.Valid) (hbb : b.IsBounded) :
    ∃ r, a.add b = .ok r :=
  exists_ofBounds fun _ _ ↦ Lawful.le_trans
    (OrderPreserving.add_le_add_right hba.1 hba.2 hbb.1 (ha.lower_le_upper hba))
    (OrderPreserving.add_le_add_left hbb.1 hbb.2 hba.2 (hb.lower_le_upper hbb))

theorem exists_sub (ha : a.Valid) (hba : a.IsBounded) (hb : b.Valid) (hbb : b.IsBounded) :
    ∃ r, a.sub b = .ok r :=
  exists_ofBounds fun _ _ ↦ Lawful.le_trans
    (OrderPreserving.sub_le_sub_right hba.1 hba.2 hbb.2 (ha.lower_le_upper hba))
    (OrderPreserving.sub_le_sub_left hbb.1 hbb.2 hba.2 (hb.lower_le_upper hbb))

end Arithmetic

/-! ## Bounds are values at bounds -/

theorem eq_of_ite_hasNaN {x : Except (Fault α) (Interval α)}
    (h : (if a.HasNaN ∨ b.HasNaN then .ok undefined else x) = .ok r) (hr : r.IsBounded) :
    x = .ok r := by
  split at h
  next hnan =>
    cases h
    rcases hnan with (hnan | hnan) | hnan | hnan <;> exact absurd rfl (hr.ne_undefined hnan)
  next => exact h

theorem isBound_of_overCorners {f : α → α → α} (h : overCorners f a b = .ok r)
    (hr : r.IsBounded) {P : α → Prop} (hP : ∀ x y, a.IsBound x → b.IsBound y → P (f x y)) :
    P r.lower ∧ P r.upper := by
  simp only [overCorners] at h
  split at h
  next hnan =>
    cases h
    rcases hnan with hnan | hnan | hnan | hnan <;> exact absurd rfl (hr.ne_undefined hnan)
  next =>
    have hp := hP _ _ (.inl rfl) (.inl rfl)
    have hq := hP _ _ (.inl rfl) (.inr rfl)
    have hs := hP _ _ (.inr rfl) (.inl rfl)
    have ht := hP _ _ (.inr rfl) (.inr rfl)
    rw [eq_of_checked h]
    exact ⟨minNum_of (minNum_of (minNum_of hp hq) hs) ht,
      maxNum_of (maxNum_of (maxNum_of hp hq) hs) ht⟩

theorem abs_bounds (ha : a.Valid) (hba : a.IsBounded) (h : a.abs = .ok r) :
    (∃ v, a.Contains v ∧ Agree (Scalar.abs v) r.lower) ∧
      ∃ v, a.Contains v ∧ Agree (Scalar.abs v) r.upper := by
  have hlower := ha.contains_of_isBound hba (.inl rfl)
  have hupper := ha.contains_of_isBound hba (.inr rfl)
  rw [abs] at h
  split at h
  next hneg =>
    have hneg' := Lawful.abs_of_nonpos (le_of_lt hneg)
    split at h
    next hpos =>
      have hpos' := Lawful.abs_of_nonneg (le_of_lt hpos)
      rw [eq_of_checked h]
      refine ⟨⟨0, ⟨le_of_lt hneg, le_of_lt hpos⟩, ?_⟩, ?_⟩
      · exact Lawful.abs_of_nonneg (not_not.mp not_isNaN_zero)
      · exact maxNum_of (P := fun u ↦ ∃ v, a.Contains v ∧ Agree (Scalar.abs v) u)
          ⟨_, hupper, hpos'⟩ ⟨_, hlower, hneg'⟩
    next hpos =>
      have hpos' := Lawful.abs_of_nonpos (le_of_not_lt not_isNaN_zero
        (Lawful.not_isNaN_of_isFinite hba.2) hpos)
      rw [eq_of_checked h]
      exact ⟨⟨_, hupper, hpos'⟩, _, hlower, hneg'⟩
  next hneg =>
    cases h
    have hnonneg := le_of_not_lt (Lawful.not_isNaN_of_isFinite hba.1) not_isNaN_zero hneg
    exact ⟨⟨_, hlower, Lawful.abs_of_nonneg hnonneg⟩, _, hupper,
      Lawful.abs_of_nonneg (Lawful.le_trans hnonneg (ha.lower_le_upper hba))⟩

end Lawful

end Interval

section Operations

variable [Lawful α] {a a' b b' r r' : Interval α} {v : α}

theorem UnaryOp.exists_within {op : UnaryOp} (ha : a.Valid) (hba : a.IsBounded)
    (hba' : a'.IsBounded) (haa : a.Within a') (h : op.onInterval a' = .ok r')
    (hr' : r'.IsBounded) : ∃ r, op.onInterval a = .ok r ∧ (r.IsBounded → r.Within r') := by
  cases op with
  | neg =>
    obtain ⟨r, hr⟩ := Interval.exists_neg ha
    refine ⟨r, hr, fun hbr ↦ ?_⟩
    rw [Interval.eq_of_ofBounds h hr', Interval.eq_of_ofBounds hr hbr]
    exact ⟨Lawful.neg_le_neg haa.2, Lawful.neg_le_neg haa.1⟩
  | abs =>
    obtain ⟨r, hr⟩ := Interval.exists_abs ha
    refine ⟨r, hr, fun _ ↦ ?_⟩
    obtain ⟨⟨v, hv, hlower⟩, w, hw, hupper⟩ := Interval.abs_bounds ha hba hr
    have hv' := Interval.contains_abs hba' (haa.contains hv) h
    have hw' := Interval.contains_abs hba' (haa.contains hw) h
    exact ⟨Lawful.le_trans hv'.1 hlower.1, Lawful.le_trans hupper.2 hw'.2⟩

/-- The number is a result of the operation on bounds of the operands. -/
def BinaryOp.IsCorner (op : BinaryOp) (a b : Interval α) (v : α) : Prop :=
  ∃ x y, a.IsBound x ∧ b.IsBound y ∧ op.onNumbers x y = .ok v

theorem BinaryOp.isCorner_bounds {op : BinaryOp} (hop : op ≠ .pow) (hb : b.Valid)
    (hbb : b.IsBounded) (h : op.onIntervals a b = .ok r) (hr : r.IsBounded) :
    op.IsCorner a b r.lower ∧ op.IsCorner a b r.upper := by
  cases op with
  | add =>
    rw [Interval.eq_of_ofBounds h hr]
    exact ⟨⟨_, _, .inl rfl, .inl rfl, rfl⟩, _, _, .inr rfl, .inr rfl, rfl⟩
  | sub =>
    rw [Interval.eq_of_ofBounds h hr]
    exact ⟨⟨_, _, .inl rfl, .inr rfl, rfl⟩, _, _, .inr rfl, .inl rfl, rfl⟩
  | mul =>
    exact Interval.isBound_of_overCorners (Interval.eq_of_ite_hasNaN h hr) hr
      fun x y hx hy ↦ ⟨x, y, hx, hy, rfl⟩
  | div =>
    rw [onIntervals, Interval.div] at h
    split at h
    · cases h
    next hzero =>
      have hclear := Interval.clear_of_not_isZero hbb hzero
      exact Interval.isBound_of_overCorners (Interval.eq_of_ite_hasNaN h hr) hr fun x y hx hy ↦
        ⟨x, y, hx, hy, onNumbers_div (hb.contains_of_isBound hbb hy) hclear⟩
  | pow => exact absurd rfl hop

/-- A corner of narrower operands is enclosed by the result on wider ones. -/
theorem BinaryOp.IsCorner.contains [OrderPreserving α] {op : BinaryOp} (hv : op.IsCorner a b v)
    (ha : a.Valid) (hba : a.IsBounded) (hb : b.Valid) (hbb : b.IsBounded) (hba' : a'.IsBounded)
    (hbb' : b'.IsBounded) (haa : a.Within a') (hbw : b.Within b')
    (hpow : op = .pow → ∃ k, Interval.IsIntegral k ∧ b = .point k ∧ b' = .point k)
    (h : op.onIntervals a' b' = .ok r') (hr' : r'.IsBounded) : r'.Contains v := by
  obtain ⟨x, y, hx, hy, hop⟩ := hv
  have hexp : op = .pow → b' = .point y ∧ Interval.IsIntegral y := by
    intro heq
    obtain ⟨k, hk, rfl, rfl⟩ := hpow heq
    have hyk : y = k := hy.elim id id
    exact ⟨hyk ▸ rfl, hyk ▸ hk⟩
  obtain ⟨w, hw, hmem⟩ := exists_onNumbers hba' hbb' (hba.isFinite_of_isBound hx)
    (hbb.isFinite_of_isBound hy) (haa.contains (ha.contains_of_isBound hba hx))
    (hbw.contains (hb.contains_of_isBound hbb hy)) hexp h hr'
  cases hop.symm.trans hw
  exact hmem

end Operations

end ImplicitPlot
