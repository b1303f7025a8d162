import ImplicitPlot.Interval.Arithmetic
import ImplicitPlot.Proofs.Scalar.Laws

/-!
# Intervals enclose values

If operands lie in intervals, the result of an operation lies in the interval that the operation
gives. The statements are about results with finite bounds: then no bound was computed from what is
not a number, and the bounds are those that the operation asks for (`eq_of_ofBounds` and
`mem_of_overCorners`).

A product or quotient is between the corners because it is between two of them in each operand,
whatever the signs (`contains_of_overCorners`).
-/

namespace ImplicitPlot.Interval

variable {α : Type} [Scalar α]

open Scalar

/-- Both bounds are finite. -/
def IsBounded (a : Interval α) : Prop := IsFinite a.lower ∧ IsFinite a.upper

instance (a : Interval α) : Decidable a.IsBounded := inferInstanceAs (Decidable (_ ∧ _))

/-! ## Bounds that were accepted -/

theorem eq_of_checked {lower upper : α} {r : Interval α} (h : checked lower upper = .ok r) :
    r = ⟨lower, upper⟩ := by
  rw [checked] at h
  split at h
  · cases h
    rfl
  · cases h

section Lawful

variable [Lawful α] {a b r : Interval α} {v w : α}

namespace IsBounded

theorem not_hasNaN (h : a.IsBounded) : ¬a.HasNaN := by
  rintro (hl | hu)
  · exact Lawful.not_isNaN_of_isFinite h.1 hl
  · exact Lawful.not_isNaN_of_isFinite h.2 hu

/-- An interval without values is not bounded, where something is not a number. -/
theorem ne_undefined {c : α} (h : r.IsBounded) (hc : IsNaN c) : r ≠ undefined := by
  rintro rfl
  exact Lawful.not_isNaN_of_isFinite h.1 (Lawful.isNaN_nan hc)

end IsBounded

theorem eq_of_ofBounds {lower upper : α} (h : ofBounds lower upper = .ok r) (hr : r.IsBounded) :
    r = ⟨lower, upper⟩ := by
  rw [ofBounds] at h
  split at h
  next hnan =>
    cases h
    rcases hnan with hnan | hnan
    · exact absurd rfl (hr.ne_undefined hnan)
    · exact absurd rfl (hr.ne_undefined hnan)
  next => exact eq_of_checked h

theorem mem_of_overCorners {f : α → α → α} (h : overCorners f a b = .ok r) (hr : r.IsBounded) :
    (r.Contains (f a.lower b.lower) ∧ r.Contains (f a.lower b.upper)) ∧
      r.Contains (f a.upper b.lower) ∧ r.Contains (f a.upper b.upper) := by
  simp only [overCorners] at h
  split at h
  next hnan =>
    cases h
    rcases hnan with hnan | hnan | hnan | hnan <;> exact absurd rfl (hr.ne_undefined hnan)
  next hnan =>
    rw [not_or, not_or, not_or] at hnan
    obtain ⟨hp, hq, hs, ht⟩ := hnan
    rw [eq_of_checked h]
    generalize f a.lower b.lower = p at *
    generalize f a.lower b.upper = q at *
    generalize f a.upper b.lower = s at *
    generalize f a.upper b.upper = t at *
    -- The least and the greatest of two, of three and of four corners.
    have hminTwo : ¬IsNaN (minNum p q) := not_isNaN_minNum hp hq
    have hminThree : ¬IsNaN (minNum (minNum p q) s) := not_isNaN_minNum hminTwo hs
    have hmaxTwo : ¬IsNaN (maxNum p q) := not_isNaN_maxNum hp hq
    have hmaxThree : ¬IsNaN (maxNum (maxNum p q) s) := not_isNaN_maxNum hmaxTwo hs
    obtain ⟨hminP, hminQ⟩ := minNum_le hp hq
    obtain ⟨hminPQ, hminS⟩ := minNum_le hminTwo hs
    obtain ⟨hmin, hminT⟩ := minNum_le hminThree ht
    obtain ⟨hmaxP, hmaxQ⟩ := le_maxNum hp hq
    obtain ⟨hmaxPQ, hmaxS⟩ := le_maxNum hmaxTwo hs
    obtain ⟨hmax, hmaxT⟩ := le_maxNum hmaxThree ht
    have hlower := Lawful.le_trans hmin hminPQ
    have hupper := Lawful.le_trans hmaxPQ hmax
    exact ⟨⟨⟨Lawful.le_trans hlower hminP, Lawful.le_trans hmaxP hupper⟩,
        Lawful.le_trans hlower hminQ, Lawful.le_trans hmaxQ hupper⟩,
      ⟨Lawful.le_trans hmin hminS, Lawful.le_trans hmaxS hmax⟩, hminT, hmaxT⟩

/-- **Between the corners.** A result that is between two others in the first operand, each of which
is between two corners in the second operand, is enclosed by the corners. -/
theorem contains_of_overCorners {f : α → α → α} (h : overCorners f a b = .ok r) (hr : r.IsBounded)
    (hfirst : LiesBetween (f a.lower w) (f a.upper w) (f v w))
    (hlower : LiesBetween (f a.lower b.lower) (f a.lower b.upper) (f a.lower w))
    (hupper : LiesBetween (f a.upper b.lower) (f a.upper b.upper) (f a.upper w)) :
    r.Contains (f v w) := by
  obtain ⟨⟨hp, hq⟩, hs, ht⟩ := mem_of_overCorners h hr
  exact ⟨hfirst.ge (hlower.ge hp.1 hq.1) (hupper.ge hs.1 ht.1),
    hfirst.le (hlower.le hp.2 hq.2) (hupper.le hs.2 ht.2)⟩

/-! ## Signs and magnitudes -/

theorem contains_neg (hv : a.Contains v) (h : a.neg = .ok r) (hr : r.IsBounded) :
    r.Contains (-v) := by
  rw [eq_of_ofBounds h hr]
  exact ⟨Lawful.neg_le_neg hv.2, Lawful.neg_le_neg hv.1⟩

theorem contains_abs (ha : a.IsBounded) (hv : a.Contains v) (h : a.abs = .ok r) :
    r.Contains (Scalar.abs v) := by
  have hnan := (Lawful.not_isNaN_of_le hv.1).2
  rw [abs] at h
  split at h
  next hneg =>
    split at h
    next hpos =>
      -- Values on both sides of zero.
      rw [eq_of_checked h]
      obtain ⟨hmaxU, hmaxL⟩ := le_maxNum (Lawful.not_isNaN_of_isFinite ha.2)
        (Lawful.not_isNaN_of_isFinite (Lawful.isFinite_neg ha.1))
      rcases abs_cases hnan with ⟨hzero, hle, hge⟩ | ⟨hzero, hle, hge⟩
      · exact ⟨Lawful.le_trans hzero hge, Lawful.le_trans hle (Lawful.le_trans hv.2 hmaxU)⟩
      · exact ⟨Lawful.le_trans (neg_nonneg_iff.mpr hzero) hge,
          Lawful.le_trans hle (Lawful.le_trans (Lawful.neg_le_neg hv.1) hmaxL)⟩
    next hpos =>
      -- No value is positive.
      rw [eq_of_checked h]
      have hupper := le_of_not_lt not_isNaN_zero (Lawful.not_isNaN_of_isFinite ha.2) hpos
      obtain ⟨hle, hge⟩ := Lawful.abs_of_nonpos (Lawful.le_trans hv.2 hupper)
      exact ⟨Lawful.le_trans (Lawful.neg_le_neg hv.2) hge,
        Lawful.le_trans hle (Lawful.neg_le_neg hv.1)⟩
  next hneg =>
    cases h
    have hlower := le_of_not_lt (Lawful.not_isNaN_of_isFinite ha.1) not_isNaN_zero hneg
    obtain ⟨hle, hge⟩ := Lawful.abs_of_nonneg (Lawful.le_trans hlower hv.1)
    exact ⟨Lawful.le_trans hv.1 hge, Lawful.le_trans hle hv.2⟩

/-! ## Sums, products and quotients -/

/-- A divisor that stays clear of zero is on one side of it, further away than the tolerance. -/
theorem clear_of_not_isZero (hb : b.IsBounded) (h : ¬b.IsZero) :
    zeroTolerance < b.lower ∨ b.upper < -zeroTolerance := by
  rcases not_and_or.mp h with hlower | hupper
  · exact .inl (lt_of_not_le (Lawful.not_isNaN_of_isFinite hb.1) not_isNaN_zeroTolerance hlower)
  · exact .inr (lt_of_not_le
      (Lawful.not_isNaN_of_le (Lawful.neg_le_neg (not_not.mp not_isNaN_zeroTolerance))).1
      (Lawful.not_isNaN_of_isFinite hb.2) hupper)

section Arithmetic

variable [OrderPreserving α]

theorem contains_add (ha : a.IsBounded) (hb : b.IsBounded) (hfv : IsFinite v) (hfw : IsFinite w)
    (hv : a.Contains v) (hw : b.Contains w) (h : a.add b = .ok r) (hr : r.IsBounded) :
    r.Contains (v + w) := by
  rw [eq_of_ofBounds h hr]
  refine ⟨Lawful.le_trans (b := v + b.lower) ?_ ?_, Lawful.le_trans (b := v + b.upper) ?_ ?_⟩
  · exact OrderPreserving.add_le_add_right ha.1 hfv hb.1 hv.1
  · exact OrderPreserving.add_le_add_left hb.1 hfw hfv hw.1
  · exact OrderPreserving.add_le_add_left hfw hb.2 hfv hw.2
  · exact OrderPreserving.add_le_add_right hfv ha.2 hb.2 hv.2

theorem contains_sub (ha : a.IsBounded) (hb : b.IsBounded) (hfv : IsFinite v) (hfw : IsFinite w)
    (hv : a.Contains v) (hw : b.Contains w) (h : a.sub b = .ok r) (hr : r.IsBounded) :
    r.Contains (v - w) := by
  rw [eq_of_ofBounds h hr]
  refine ⟨Lawful.le_trans (b := v - b.upper) ?_ ?_, Lawful.le_trans (b := v - b.lower) ?_ ?_⟩
  · exact OrderPreserving.sub_le_sub_right ha.1 hfv hb.2 hv.1
  · exact OrderPreserving.sub_le_sub_left hfw hb.2 hfv hw.2
  · exact OrderPreserving.sub_le_sub_left hb.1 hfw hfv hw.1
  · exact OrderPreserving.sub_le_sub_right hfv ha.2 hb.1 hv.2

theorem liesBetween_mul_right {c : α} (ha : a.IsBounded) (hfv : IsFinite v) (hc : IsFinite c)
    (hv : a.Contains v) : LiesBetween (a.lower * c) (a.upper * c) (v * c) := by
  rcases nonneg_or_nonpos hc with hsign | hsign
  · exact .inl ⟨OrderPreserving.mul_le_mul_right ha.1 hfv hc hv.1 hsign,
      OrderPreserving.mul_le_mul_right hfv ha.2 hc hv.2 hsign⟩
  · exact .inr ⟨OrderPreserving.mul_le_mul_right_of_nonpos hfv ha.2 hc hv.2 hsign,
      OrderPreserving.mul_le_mul_right_of_nonpos ha.1 hfv hc hv.1 hsign⟩

theorem liesBetween_mul_left {c : α} (ha : a.IsBounded) (hfv : IsFinite v) (hc : IsFinite c)
    (hv : a.Contains v) : LiesBetween (c * a.lower) (c * a.upper) (c * v) := by
  rcases nonneg_or_nonpos hc with hsign | hsign
  · exact .inl ⟨OrderPreserving.mul_le_mul_left ha.1 hfv hc hv.1 hsign,
      OrderPreserving.mul_le_mul_left hfv ha.2 hc hv.2 hsign⟩
  · exact .inr ⟨OrderPreserving.mul_le_mul_left_of_nonpos hfv ha.2 hc hv.2 hsign,
      OrderPreserving.mul_le_mul_left_of_nonpos ha.1 hfv hc hv.1 hsign⟩

theorem contains_mul (ha : a.IsBounded) (hb : b.IsBounded) (hfv : IsFinite v) (hfw : IsFinite w)
    (hv : a.Contains v) (hw : b.Contains w) (h : a.mul b = .ok r) (hr : r.IsBounded) :
    r.Contains (v * w) := by
  rw [mul, if_neg (not_or.mpr ⟨ha.not_hasNaN, hb.not_hasNaN⟩)] at h
  exact contains_of_overCorners h hr (liesBetween_mul_right ha hfv hfw hv)
    (liesBetween_mul_left hb hfw ha.1 hw) (liesBetween_mul_left hb hfw ha.2 hw)

omit [Lawful α] in
theorem liesBetween_div_right {c : α} (ha : a.IsBounded) (hfv : IsFinite v) (hc : IsFinite c)
    (hv : a.Contains v) (hsign : 0 < c ∨ c < 0) :
    LiesBetween (a.lower / c) (a.upper / c) (v / c) := by
  rcases hsign with hsign | hsign
  · exact .inl ⟨OrderPreserving.div_le_div_right ha.1 hfv hc hv.1 hsign,
      OrderPreserving.div_le_div_right hfv ha.2 hc hv.2 hsign⟩
  · exact .inr ⟨OrderPreserving.div_le_div_right_of_neg hfv ha.2 hc hv.2 hsign,
      OrderPreserving.div_le_div_right_of_neg ha.1 hfv hc hv.1 hsign⟩

theorem liesBetween_div_left {c : α} (hb : b.IsBounded) (hfw : IsFinite w) (hc : IsFinite c)
    (hw : b.Contains w) (hsign : 0 < b.lower ∨ b.upper < 0) :
    LiesBetween (c / b.lower) (c / b.upper) (c / w) := by
  have hbelow : 0 < b.lower ∨ w < 0 := hsign.imp_right fun hneg ↦ lt_of_le_of_lt hw.2 hneg
  have habove : 0 < w ∨ b.upper < 0 := hsign.imp_left fun hpos ↦ lt_of_lt_of_le hpos hw.1
  rcases nonneg_or_nonpos hc with hc' | hc'
  · exact .inr ⟨OrderPreserving.div_le_div_left hfw hb.2 hc hw.2 habove hc',
      OrderPreserving.div_le_div_left hb.1 hfw hc hw.1 hbelow hc'⟩
  · exact .inl ⟨OrderPreserving.div_le_div_left_of_nonpos hb.1 hfw hc hw.1 hbelow hc',
      OrderPreserving.div_le_div_left_of_nonpos hfw hb.2 hc hw.2 habove hc'⟩

theorem contains_div (ha : a.IsBounded) (hb : b.IsBounded) (hfv : IsFinite v) (hfw : IsFinite w)
    (hv : a.Contains v) (hw : b.Contains w) (h : a.div b = .ok r) (hr : r.IsBounded)
    (hsign : 0 < b.lower ∨ b.upper < 0) : r.Contains (v / w) := by
  rw [div] at h
  split at h
  · cases h
  rw [if_neg (not_or.mpr ⟨ha.not_hasNaN, hb.not_hasNaN⟩)] at h
  have hsign' : 0 < w ∨ w < 0 :=
    hsign.imp (fun hpos ↦ lt_of_lt_of_le hpos hw.1) fun hneg ↦ lt_of_le_of_lt hw.2 hneg
  exact contains_of_overCorners h hr (liesBetween_div_right ha hfv hfw hv hsign')
    (liesBetween_div_left hb hfw ha.1 hw hsign) (liesBetween_div_left hb hfw ha.2 hw hsign)

end Arithmetic

end Lawful

end ImplicitPlot.Interval
