import ImplicitPlot.Proofs.Interval.Points
import ImplicitPlot.Proofs.Interval.Validity

/-!
# Degenerate intervals

An interval is degenerate if its bounds are the same number, or if neither of them is one. The
bounds need not be represented alike: one may be the positive and the other one the negative zero.
Operations on degenerate intervals give degenerate intervals, as both bounds of the result are
computed from numbers of equal size, and the sign of a zero shows only where something is divided by
it, which is refused.

This goes further than `Interval.IsSingle`, for which both bounds are computed from the very same
numbers, and needs that results have equal sizes for operands of equal sizes
(`Scalar.SizeDetermined`).
-/

namespace ImplicitPlot

variable {α : Type} [Scalar α]

open Scalar

namespace Interval

/-- The bounds are the same number, or neither is a number. -/
def IsDegenerate (a : Interval α) : Prop := a.IsPoint ∨ IsNaN a.lower ∧ IsNaN a.upper

instance (a : Interval α) : Decidable a.IsDegenerate := inferInstanceAs (Decidable (_ ∨ _ ∧ _))

variable {a b e r : Interval α} {lower upper v : α}

/-- Constants are degenerate. -/
@[simp] theorem isDegenerate_point (v : α) : (point v).IsDegenerate := by
  by_cases h : IsNaN v
  · exact .inr ⟨h, h⟩
  · exact .inl (agree_self h)

theorem IsDegenerate.isPoint (h : a.IsDegenerate) (hnumber : ¬a.HasNaN) : a.IsPoint :=
  h.resolve_right fun hnan ↦ hnumber (.inl hnan.1)

/-! ## How bounds are put together -/

theorem isDegenerate_of_checked (h : checked lower upper = .ok r) (hagree : Agree lower upper) :
    r.IsDegenerate := by
  rw [checked] at h
  split at h
  · cases h
    exact .inl hagree
  · cases h

theorem isDegenerate_of_ofBounds (h : ofBounds lower upper = .ok r)
    (hagree : ¬IsNaN lower → ¬IsNaN upper → Agree lower upper) : r.IsDegenerate := by
  rw [ofBounds] at h
  split at h
  · cases h
    exact isDegenerate_point _
  next hnan =>
    obtain ⟨hlower, hupper⟩ := not_or.mp hnan
    exact isDegenerate_of_checked h (hagree hlower hupper)

theorem isDegenerate_of_ite_hasNaN {x : Except (Fault α) (Interval α)}
    (h : (if a.HasNaN ∨ b.HasNaN then .ok undefined else x) = .ok r)
    (hx : ¬a.HasNaN → ¬b.HasNaN → x = .ok r → r.IsDegenerate) : r.IsDegenerate := by
  split at h
  · cases h
    exact isDegenerate_point _
  next hnan =>
    obtain ⟨ha, hb⟩ := not_or.mp hnan
    exact hx ha hb h

theorem IsPoint.symm (h : a.IsPoint) : Agree a.upper a.lower := Agree.symm h

/-! ## Sums and differences -/

section Sums

variable [OrderedSums α] [SizeDetermined α]

private theorem isDegenerate_of_add (ha : a.IsDegenerate) (hb : b.IsDegenerate)
    (h : a.add b = .ok r) :
    r.IsDegenerate := by
  refine isDegenerate_of_ofBounds h fun hlower hupper ↦ ?_
  obtain ⟨hal, hbl⟩ := OrderedSums.not_isNaN_of_add hlower
  have hpa : a.IsPoint := ha.resolve_right fun hnan ↦ hal hnan.1
  have hpb : b.IsPoint := hb.resolve_right fun hnan ↦ hbl hnan.1
  exact SizeDetermined.add_agree hpa hpb hlower

private theorem isDegenerate_of_sub (ha : a.IsDegenerate) (hb : b.IsDegenerate)
    (h : a.sub b = .ok r) :
    r.IsDegenerate := by
  refine isDegenerate_of_ofBounds h fun hlower hupper ↦ ?_
  obtain ⟨hal, hbu⟩ := OrderedSums.not_isNaN_of_sub hlower
  have hpa : a.IsPoint := ha.resolve_right fun hnan ↦ hal hnan.1
  have hpb : b.IsPoint := hb.resolve_right fun hnan ↦ hbu hnan.2
  exact SizeDetermined.sub_agree hpa hpb.symm hlower

end Sums

section Lawful

variable [Lawful α]

/-! ## Extremes -/

private theorem agree_extremes {p q r s : α} (hq : Agree p q) (hr : Agree p r) (hs : Agree p s) :
    Agree (minNum (minNum (minNum p q) r) s) (maxNum (maxNum (maxNum p q) r) s) := by
  have hp : Agree p p := agree_self hq.not_isNaN.1
  have hmin := minNum_of (P := Agree p) (minNum_of (P := Agree p) (minNum_of hp hq) hr) hs
  have hmax := maxNum_of (P := Agree p) (maxNum_of (P := Agree p) (maxNum_of hp hq) hr) hs
  exact hmin.symm.trans hmax

/-- Two values of which neither is a number unless the other one is, and which are of equal size
then. -/
theorem agree_minNum_maxNum {p q : α}
    (h : (¬IsNaN p → Agree p q) ∧ (¬IsNaN q → Agree q p)) (hmin : ¬IsNaN (minNum p q)) :
    Agree (minNum p q) (maxNum p q) := by
  have hp : ¬IsNaN p := by
    intro hp
    have hq : IsNaN q := by_contra fun hq ↦ (h.2 hq).not_isNaN.2 hp
    exact hmin (minNum_of (P := IsNaN) hp hq)
  have hpq := h.1 hp
  have hmin := minNum_of (P := Agree p) (agree_self hp) hpq
  exact hmin.symm.trans (maxNum_of (P := Agree p) (agree_self hp) hpq)

theorem isDegenerate_of_overCorners {f : α → α → α} (ha : a.IsPoint) (hb : b.IsPoint)
    (hf : ∀ x y, Agree a.lower x → Agree b.lower y → ¬IsNaN (f a.lower b.lower) →
      Agree (f a.lower b.lower) (f x y))
    (h : overCorners f a b = .ok r) : r.IsDegenerate := by
  simp only [overCorners] at h
  split at h
  · cases h
    exact isDegenerate_point _
  next hnan =>
    have hnumber : ¬IsNaN (f a.lower b.lower) := fun hp ↦ hnan (.inl hp)
    have hal : Agree a.lower a.lower := agree_self (Agree.not_isNaN ha).1
    have hbl : Agree b.lower b.lower := agree_self (Agree.not_isNaN hb).1
    exact isDegenerate_of_checked h (agree_extremes (hf _ _ hal hb hnumber)
      (hf _ _ ha hbl hnumber) (hf _ _ ha hb hnumber))

/-! ## Negations and magnitudes -/

/-- A point is not on both sides of zero. -/
theorem IsPoint.not_straddling (h : a.IsPoint) : ¬(a.lower < 0 ∧ 0 < a.upper) := by
  rintro ⟨hneg, hpos⟩
  exact not_lt_of_le h.2 (Scalar.lt_of_lt_of_le hneg (le_of_lt hpos))

private theorem isDegenerate_of_neg (ha : a.IsDegenerate) (h : a.neg = .ok r) : r.IsDegenerate := by
  refine isDegenerate_of_ofBounds h fun hupper hlower ↦ ?_
  have hnumber : ¬a.HasNaN :=
    not_or.mpr ⟨mt isNaN_neg_iff.mpr hlower, mt isNaN_neg_iff.mpr hupper⟩
  exact (ha.isPoint hnumber).symm.neg

private theorem isDegenerate_of_abs (ha : a.IsDegenerate) (h : a.abs = .ok r) : r.IsDegenerate := by
  rw [abs] at h
  split at h
  next hneg =>
    have hpoint : a.IsPoint := ha.resolve_right fun hnan ↦
      (Lawful.not_isNaN_of_le (le_of_lt hneg)).1 hnan.1
    rw [if_neg fun hpos ↦ hpoint.not_straddling ⟨hneg, hpos⟩] at h
    exact isDegenerate_of_checked h hpoint.symm.neg
  next =>
    cases h
    exact ha

/-! ## Products, quotients and powers -/

theorem not_agree_zero_of_not_isZero (hb : b.IsPoint) (h : ¬b.IsZero) : ¬Agree b.lower 0 := by
  intro hzero
  refine h ⟨Lawful.le_trans hzero.1 (le_of_lt Lawful.zeroTolerance_pos), ?_⟩
  exact Lawful.le_trans (le_of_lt neg_zeroTolerance_neg) (Lawful.le_trans hzero.2 hb.1)

section SizeDetermined

variable [SizeDetermined α]

private theorem isDegenerate_of_mul (ha : a.IsDegenerate) (hb : b.IsDegenerate)
    (h : a.mul b = .ok r) :
    r.IsDegenerate := by
  refine isDegenerate_of_ite_hasNaN h fun hna hnb h ↦ ?_
  exact isDegenerate_of_overCorners (ha.isPoint hna) (hb.isPoint hnb)
    (fun x y hx hy ↦ SizeDetermined.mul_agree hx hy) h

private theorem isDegenerate_of_div (ha : a.IsDegenerate) (hb : b.IsDegenerate)
    (h : a.div b = .ok r) :
    r.IsDegenerate := by
  rw [div] at h
  split at h
  · cases h
  next hclear =>
    refine isDegenerate_of_ite_hasNaN h fun hna hnb h ↦ ?_
    have hzero := not_agree_zero_of_not_isZero (hb.isPoint hnb) hclear
    exact isDegenerate_of_overCorners (ha.isPoint hna) (hb.isPoint hnb)
      (fun x y hx hy ↦ SizeDetermined.div_agree hx hy hzero) h

private theorem isDegenerate_of_powNonpositive (ha : a.IsPoint) (he : e.IsPoint)
    (hneg : a.lower < 0)
    (h : a.powNonpositive e = .ok r) : r.IsDegenerate := by
  rw [powNonpositive] at h
  split at h
  · cases h
  next k hk =>
    obtain ⟨rfl, -⟩ := eq_round_of_asInteger? hk
    have hlower : Agree a.lower a.lower := agree_self (Agree.not_isNaN ha).1
    have hexponent : Agree (round e.lower) (round e.lower) :=
      SizeDetermined.round_agree (agree_self (Agree.not_isNaN he).1)
    have hpow {x y : α} (hx : Agree a.lower x) (hy : Agree a.lower y)
        (hnumber : ¬IsNaN (Scalar.pow x (round e.lower))) :
        Agree (Scalar.pow x (round e.lower)) (Scalar.pow y (round e.lower)) := by
      refine SizeDetermined.pow_agree (hx.symm.trans hy) hexponent ?_ hnumber
      rintro ⟨-, hzero⟩
      exact not_le_of_lt hneg (hx.trans hzero).2
    have hfirst : Agree a.lower (if IsEven (round e.lower) then a.upper else a.lower) := by
      split
      · exact ha
      · exact hlower
    have hsecond : Agree a.lower (if IsEven (round e.lower) then a.lower else a.upper) := by
      split
      · exact hlower
      · exact ha
    refine isDegenerate_of_ofBounds h fun hmin _ ↦ agree_minNum_maxNum ?_ hmin
    exact ⟨hpow hfirst hsecond, hpow hsecond hfirst⟩

private theorem isDegenerate_of_pow (ha : a.IsDegenerate) (he : e.IsDegenerate)
    (h : a.pow e = .ok r) :
    r.IsDegenerate := by
  refine isDegenerate_of_ite_hasNaN h fun hna hne h ↦ ?_
  have hpa := ha.isPoint hna
  have hpe := he.isPoint hne
  split at h
  · cases h
  next hpole =>
    rw [if_neg hpa.not_straddling] at h
    split at h
    · refine isDegenerate_of_overCorners hpa hpe (fun x y hx hy ↦ ?_) h
      refine SizeDetermined.pow_agree hx hy fun ⟨hneg, hzero⟩ ↦ hpole ⟨hneg, hzero.1, ?_⟩
      exact Lawful.le_trans hzero.2 hpa.1
    next hlower =>
      have hneg : a.lower < 0 :=
        lt_of_not_le not_isNaN_zero (Agree.not_isNaN hpa).1 hlower
      exact isDegenerate_of_powNonpositive hpa hpe hneg h

end SizeDetermined

end Lawful

end Interval

/-! ## All operations -/

variable [Lawful α] {a b r : Interval α}

theorem UnaryOp.isDegenerate_of_onInterval {op : UnaryOp} (ha : a.IsDegenerate)
    (h : op.onInterval a = .ok r) : r.IsDegenerate := by
  cases op with
  | neg => exact Interval.isDegenerate_of_neg ha h
  | abs => exact Interval.isDegenerate_of_abs ha h

/-- **Operations keep intervals degenerate.** -/
theorem BinaryOp.isDegenerate_of_onIntervals [OrderedSums α] [SizeDetermined α] {op : BinaryOp}
    (ha : a.IsDegenerate) (hb : b.IsDegenerate) (h : op.onIntervals a b = .ok r) :
    r.IsDegenerate := by
  cases op with
  | add => exact Interval.isDegenerate_of_add ha hb h
  | sub => exact Interval.isDegenerate_of_sub ha hb h
  | mul => exact Interval.isDegenerate_of_mul ha hb h
  | div => exact Interval.isDegenerate_of_div ha hb h
  | pow => exact Interval.isDegenerate_of_pow ha hb h

end ImplicitPlot
