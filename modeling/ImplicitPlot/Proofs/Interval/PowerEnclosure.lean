import ImplicitPlot.Interval.Power
import ImplicitPlot.Proofs.Interval.Enclosure

/-!
# Powers of intervals enclose powers

The power of an interval to an integral exponent encloses the powers of the values in the interval.
A base on one side of zero has powers between those of its bounds: on the positive side because a
power is monotone there (`liesBetween_pow_of_nonneg`), on the negative side by the parity of the
exponent (`liesBetween_pow_of_nonpos`).
A base on both sides of zero is split at zero.
-/

namespace ImplicitPlot.Interval

variable {α : Type} [Scalar α] [Scalar.Lawful α] {a r : Interval α} {v k : α}

open Scalar

/-- The exponent is an integer, and not an infinite one. -/
structure IsIntegral (k : α) : Prop where
  isFinite : IsFinite k
  round_eq : round k = k

private theorem contains_negated (hv : a.Contains v) : Contains ⟨-a.upper, -a.lower⟩ (-v) :=
  ⟨Lawful.neg_le_neg hv.2, Lawful.neg_le_neg hv.1⟩

namespace IsIntegral

/-- An integral exponent stands for itself. -/
theorem asInteger?_point (hk : IsIntegral k) : (point k).asInteger? = some k := by
  have hle : k - k ≤ zeroTolerance :=
    Lawful.le_trans (Lawful.sub_self hk.isFinite).1 (le_of_lt Lawful.zeroTolerance_pos)
  have habs := abs_sub_self_le hk.isFinite
  simp only [asInteger?, point, hk.round_eq]
  rw [if_pos ⟨hle, habs, habs⟩]

end IsIntegral

/-! ## Powers by the side of zero -/

omit [Scalar.Lawful α] in
theorem isBounded_point (hk : IsIntegral k) : (point k).IsBounded := ⟨hk.isFinite, hk.isFinite⟩

/-- A base that meets no negative exponent at zero is raised by the side of zero on which it is. -/
theorem pow_point (hba : a.IsBounded) (hk : IsIntegral k) (hzero : ¬(k < 0 ∧ a.Contains 0)) :
    a.pow (point k) =
      if a.lower < 0 ∧ 0 < a.upper then a.powStraddling (point k)
      else if 0 ≤ a.lower then overCorners Scalar.pow a (point k)
      else a.powNonpositive (point k) := by
  have hnan := not_or.mpr ⟨hba.not_hasNaN, (isBounded_point hk).not_hasNaN⟩
  rw [pow, if_neg hnan]
  exact if_neg hzero

theorem not_neg_of_pow_point (hba : a.IsBounded) (hk : IsIntegral k)
    (h : a.pow (point k) = .ok r) : ¬(k < 0 ∧ a.Contains 0) := by
  intro hzero
  have hnan := not_or.mpr ⟨hba.not_hasNaN, (isBounded_point hk).not_hasNaN⟩
  rw [pow, if_neg hnan, if_pos (show (point k).lower < 0 ∧ _ from hzero)] at h
  cases h

theorem powStraddling_point (hk : IsIntegral k) :
    a.powStraddling (point k) =
      if IsEven k then ofBounds 0 (Scalar.pow (maxNum a.upper (-a.lower)) k)
      else ofBounds (Scalar.pow a.lower k) (Scalar.pow a.upper k) := by
  simp only [powStraddling, hk.asInteger?_point]
  simp only [point, maxNum_self]

/-- The greatest magnitude in a base on both sides of zero. -/
theorem isFinite_maxNum (hba : a.IsBounded) : IsFinite (maxNum a.upper (-a.lower)) :=
  maxNum_of (P := fun v ↦ IsFinite v) hba.2 (Lawful.isFinite_neg hba.1)

/-- A base that is neither on both sides of zero nor on the positive side. -/
theorem nonpositive_of_not (hba : a.IsBounded) (hboth : ¬(a.lower < 0 ∧ 0 < a.upper))
    (hlower : ¬0 ≤ a.lower) : a.lower < 0 ∧ a.upper ≤ 0 := by
  have hneg := lt_of_not_le not_isNaN_zero (Lawful.not_isNaN_of_isFinite hba.1) hlower
  exact ⟨hneg, le_of_not_lt not_isNaN_zero (Lawful.not_isNaN_of_isFinite hba.2)
    fun hpos ↦ hboth ⟨hneg, hpos⟩⟩

/-- The exponent is not negative if zero is in the base. -/
theorem nonneg_exponent (hk : IsIntegral k) (hzero : ¬(k < 0 ∧ a.Contains 0))
    (ha : a.Contains 0) : 0 ≤ k :=
  le_of_not_lt (Lawful.not_isNaN_of_isFinite hk.isFinite) not_isNaN_zero
    fun hneg ↦ hzero ⟨hneg, ha⟩

/-! ## Powers of values -/

variable [OrderedPowers α]

theorem IsIntegral.pow_nonpos_of_odd (hk : IsIntegral k) (hodd : ¬IsEven k) (hsign : 0 ≤ k)
    (hfv : IsFinite v) (hv : v ≤ 0) : Scalar.pow v k ≤ 0 := by
  have hpow := OrderedPowers.pow_nonneg (Lawful.isFinite_neg hfv) hk.isFinite hk.round_eq
    (.inl hsign) (neg_nonneg_iff.mpr hv)
  exact neg_nonneg_iff.mp (Lawful.le_trans hpow
    (OrderedPowers.pow_neg_of_odd hfv hk.isFinite hk.round_eq hodd).1)

/-- On the positive side a power is monotone, or antitone if the exponent is negative. -/
theorem liesBetween_pow_of_nonneg (ha : a.IsBounded) (hfv : IsFinite v) (hk : IsIntegral k)
    (hv : a.Contains v) (hside : 0 ≤ a.lower) (hzero : 0 ≤ k ∨ 0 < a.lower) :
    LiesBetween (Scalar.pow a.lower k) (Scalar.pow a.upper k) (Scalar.pow v k) := by
  by_cases hsign : 0 ≤ k
  · exact .inl ⟨OrderedPowers.pow_le_pow ha.1 hfv hk.isFinite hk.round_eq hsign hside hv.1,
      OrderedPowers.pow_le_pow hfv ha.2 hk.isFinite hk.round_eq hsign
        (Lawful.le_trans hside hv.1) hv.2⟩
  · have hneg := lt_of_not_le not_isNaN_zero (Lawful.not_isNaN_of_isFinite hk.isFinite) hsign
    have hpos := hzero.resolve_left hsign
    exact .inr ⟨OrderedPowers.pow_le_pow_of_neg hfv ha.2 hk.isFinite hk.round_eq hneg
        (lt_of_lt_of_le hpos hv.1) hv.2,
      OrderedPowers.pow_le_pow_of_neg ha.1 hfv hk.isFinite hk.round_eq hneg hpos hv.1⟩

/-- On the negative side the powers are those of the negated base, up to their signs. -/
theorem liesBetween_pow_of_nonpos (ha : a.IsBounded) (hfv : IsFinite v) (hk : IsIntegral k)
    (hv : a.Contains v) (hside : a.upper ≤ 0) (hzero : 0 ≤ k ∨ a.upper < 0) :
    LiesBetween (Scalar.pow a.lower k) (Scalar.pow a.upper k) (Scalar.pow v k) := by
  have hneg : LiesBetween (Scalar.pow (-a.lower) k) (Scalar.pow (-a.upper) k)
      (Scalar.pow (-v) k) :=
    (liesBetween_pow_of_nonneg (a := ⟨-a.upper, -a.lower⟩)
      ⟨Lawful.isFinite_neg ha.2, Lawful.isFinite_neg ha.1⟩ (Lawful.isFinite_neg hfv) hk
      (contains_negated hv) (neg_nonneg_iff.mpr hside) (hzero.imp_right neg_pos_iff.mpr)).symm
  by_cases heven : IsEven k
  · have hagree : ∀ {x : α}, IsFinite x → Agree (Scalar.pow (-x) k) (Scalar.pow x k) :=
      fun hx ↦ OrderedPowers.pow_neg_of_even hx hk.isFinite hk.round_eq heven
    exact hneg.congr (hagree ha.1) (hagree ha.2) (hagree hfv)
  · have hagree : ∀ {x : α}, IsFinite x → Agree (Scalar.pow (-x) k) (-Scalar.pow x k) :=
      fun hx ↦ OrderedPowers.pow_neg_of_odd hx hk.isFinite hk.round_eq heven
    have hpow := (hneg.congr (hagree ha.1) (hagree ha.2) (hagree hfv)).neg
    rwa [Lawful.neg_neg, Lawful.neg_neg, Lawful.neg_neg] at hpow

/-- The powers of a base on both sides of zero: an even power is at most that of the greatest
magnitude, an odd power keeps the order and the sign. -/
theorem contains_powStraddling (ha : a.IsBounded) (hfv : IsFinite v) (hk : IsIntegral k)
    (hv : a.Contains v) (hlower : a.lower < 0) (hupper : 0 < a.upper) (hsign : 0 ≤ k)
    (h : a.powStraddling (point k) = .ok r) (hr : r.IsBounded) : r.Contains (Scalar.pow v k) := by
  have hmono : ∀ {x y : α}, IsFinite x → IsFinite y → 0 ≤ x → x ≤ y →
      Scalar.pow x k ≤ Scalar.pow y k := fun hx hy hx0 hxy ↦
    OrderedPowers.pow_le_pow hx hy hk.isFinite hk.round_eq hsign hx0 hxy
  have hnonneg : ∀ {x : α}, IsFinite x → 0 ≤ x → 0 ≤ Scalar.pow x k := fun hx hx0 ↦
    OrderedPowers.pow_nonneg hx hk.isFinite hk.round_eq (.inl hsign) hx0
  have hfneg := Lawful.isFinite_neg hfv
  rw [powStraddling_point hk] at h
  by_cases heven : IsEven k
  · rw [if_pos heven] at h
    rw [eq_of_ofBounds h hr]
    obtain ⟨hmaxU, hmaxL⟩ := le_maxNum (Lawful.not_isNaN_of_isFinite ha.2)
      (Lawful.not_isNaN_of_isFinite (Lawful.isFinite_neg ha.1))
    have hfm := isFinite_maxNum ha
    rcases nonneg_or_nonpos hfv with hv0 | hv0
    · exact ⟨hnonneg hfv hv0, hmono hfv hfm hv0 (Lawful.le_trans hv.2 hmaxU)⟩
    · -- The power is that of the negated value.
      obtain ⟨hle, hge⟩ := OrderedPowers.pow_neg_of_even hfv hk.isFinite hk.round_eq heven
      have hv0' := neg_nonneg_iff.mpr hv0
      exact ⟨Lawful.le_trans (hnonneg hfneg hv0') hle, Lawful.le_trans hge
        (hmono hfneg hfm hv0' (Lawful.le_trans (Lawful.neg_le_neg hv.1) hmaxL))⟩
  · rw [if_neg heven] at h
    rw [eq_of_ofBounds h hr]
    have hpowL := hk.pow_nonpos_of_odd heven hsign ha.1 (le_of_lt hlower)
    have hpowU := hnonneg ha.2 (le_of_lt hupper)
    rcases nonneg_or_nonpos hfv with hv0 | hv0
    · exact ⟨Lawful.le_trans hpowL (hnonneg hfv hv0), hmono hfv ha.2 hv0 hv.2⟩
    · obtain ⟨hle, -⟩ := OrderedPowers.pow_neg_of_odd ha.1 hk.isFinite hk.round_eq heven
      obtain ⟨-, hge⟩ := OrderedPowers.pow_neg_of_odd hfv hk.isFinite hk.round_eq heven
      have hneg := hmono hfneg (Lawful.isFinite_neg ha.1) (neg_nonneg_iff.mpr hv0)
        (Lawful.neg_le_neg hv.1)
      exact ⟨neg_le_neg_iff.mp (Lawful.le_trans hge (Lawful.le_trans hneg hle)),
        Lawful.le_trans (hk.pow_nonpos_of_odd heven hsign hfv hv0) hpowU⟩

omit [OrderedPowers α] in
private theorem contains_powNonpositive (hk : IsIntegral k)
    (hv : LiesBetween (Scalar.pow a.lower k) (Scalar.pow a.upper k) (Scalar.pow v k))
    (h : a.powNonpositive (point k) = .ok r) (hr : r.IsBounded) :
    r.Contains (Scalar.pow v k) := by
  simp only [powNonpositive, hk.asInteger?_point] at h
  rw [eq_of_ofBounds h hr]
  split
  · exact ⟨hv.symm.minNum_le, hv.symm.le_maxNum⟩
  · exact ⟨hv.minNum_le, hv.le_maxNum⟩

/-- **Powers are enclosed.** By the side of zero on which the base lies; a negative exponent is met
only by a base that does not touch zero. -/
theorem contains_pow (ha : a.IsBounded) (hfv : IsFinite v) (hk : IsIntegral k) (hv : a.Contains v)
    (h : a.pow (point k) = .ok r) (hr : r.IsBounded) : r.Contains (Scalar.pow v k) := by
  have hnanL := Lawful.not_isNaN_of_isFinite ha.1
  have hnanU := Lawful.not_isNaN_of_isFinite ha.2
  have hzero := not_neg_of_pow_point ha hk h
  have hsign : 0 ≤ k ∨ ¬a.Contains 0 := by
    by_cases hcontains : a.Contains 0
    · exact .inl (nonneg_exponent hk hzero hcontains)
    · exact .inr hcontains
  rw [pow_point ha hk hzero] at h
  split at h
  next hboth =>
    have hnonneg := nonneg_exponent hk hzero ⟨le_of_lt hboth.1, le_of_lt hboth.2⟩
    exact contains_powStraddling ha hfv hk hv hboth.1 hboth.2 hnonneg h hr
  next hboth =>
    split at h
    next hlower =>
      have hclear : 0 ≤ k ∨ 0 < a.lower := hsign.imp_right fun hout ↦
        lt_of_not_le hnanL not_isNaN_zero fun hle ↦
          hout ⟨hle, Lawful.le_trans hlower (Lawful.le_trans hv.1 hv.2)⟩
      have hpow := liesBetween_pow_of_nonneg ha hfv hk hv hlower hclear
      exact contains_of_overCorners h hr hpow (.self hpow.not_isNaN.1) (.self hpow.not_isNaN.2)
    next hlower =>
      obtain ⟨hneg, hupper⟩ := nonpositive_of_not ha hboth hlower
      have hclear : 0 ≤ k ∨ a.upper < 0 := hsign.imp_right fun hout ↦
        lt_of_not_le not_isNaN_zero hnanU fun hle ↦ hout ⟨le_of_lt hneg, hle⟩
      exact contains_powNonpositive hk (liesBetween_pow_of_nonpos ha hfv hk hv hupper hclear) h hr

end ImplicitPlot.Interval
