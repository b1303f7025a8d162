import ImplicitPlot.Proofs.Interval.Inclusion

/-!
# Powers keep inclusions

A narrower base has a narrower power to an integral exponent. As for the other operations, the
bounds of a power are powers of bounds of the base, with one exception: an even power of a base on
both sides of zero starts at zero, which need not be a power of anything if the exponent is zero.
Then the wider base is on both sides of zero as well, and the two powers are compared directly.
-/

namespace ImplicitPlot

variable {α : Type} [Scalar α] [Scalar.Lawful α] {a a' r r' : Interval α} {k : α}

open Scalar

namespace Interval

/-! ## The bounds of a power -/

/-- The bounds of a power are powers of bounds of the base, or else the power is an even one of a
base on both sides of zero. -/
theorem bounds_of_pow (hba : a.IsBounded) (hk : IsIntegral k) (h : a.pow (point k) = .ok r)
    (hr : r.IsBounded) :
    ((∃ v, a.IsBound v ∧ Scalar.pow v k = r.lower) ∧
        ∃ v, a.IsBound v ∧ Scalar.pow v k = r.upper) ∨
      (a.lower < 0 ∧ 0 < a.upper) ∧ IsEven k ∧
        r = ⟨0, Scalar.pow (maxNum a.upper (-a.lower)) k⟩ := by
  rw [pow_point hba hk (not_neg_of_pow_point hba hk h)] at h
  split at h
  next hboth =>
    rw [powStraddling_point hk] at h
    split at h
    next heven => exact .inr ⟨hboth, heven, eq_of_ofBounds h hr⟩
    next =>
      rw [eq_of_ofBounds h hr]
      exact .inl ⟨⟨_, .inl rfl, rfl⟩, _, .inr rfl, rfl⟩
  split at h
  · refine .inl (isBound_of_overCorners h hr (P := fun u ↦ ∃ v, a.IsBound v ∧ Scalar.pow v k = u)
      fun x y hx hy ↦ ⟨x, hx, ?_⟩)
    rw [hy.elim id id]
    rfl
  · simp only [powNonpositive, hk.asInteger?_point] at h
    rw [eq_of_ofBounds h hr]
    -- An even power turns the bounds around; either way each is the power of a bound.
    have hbounds : ∀ v w, a.IsBound v → a.IsBound w →
        (∃ u, a.IsBound u ∧ Scalar.pow u k = minNum (Scalar.pow v k) (Scalar.pow w k)) ∧
          ∃ u, a.IsBound u ∧ Scalar.pow u k = maxNum (Scalar.pow v k) (Scalar.pow w k) :=
      fun v w hv hw ↦
        ⟨minNum_of (P := fun t ↦ ∃ u, a.IsBound u ∧ Scalar.pow u k = t) ⟨v, hv, rfl⟩ ⟨w, hw, rfl⟩,
          maxNum_of (P := fun t ↦ ∃ u, a.IsBound u ∧ Scalar.pow u k = t) ⟨v, hv, rfl⟩ ⟨w, hw, rfl⟩⟩
    split
    · exact .inl (hbounds _ _ (.inr rfl) (.inl rfl))
    · exact .inl (hbounds _ _ (.inl rfl) (.inr rfl))

variable [OrderedPowers α]

/-- A base that meets no negative exponent at zero has a power. -/
theorem exists_pow (ha : a.Valid) (hba : a.IsBounded) (hk : IsIntegral k)
    (hzero : ¬(k < 0 ∧ a.Contains 0)) : ∃ r, a.pow (point k) = .ok r := by
  have hle := ha.lower_le_upper hba
  rw [pow_point hba hk hzero]
  split
  next hboth =>
    have hsign := nonneg_exponent hk hzero ⟨le_of_lt hboth.1, le_of_lt hboth.2⟩
    rw [powStraddling_point hk]
    split
    · have hmax := (le_maxNum (Lawful.not_isNaN_of_isFinite hba.2)
        (Lawful.not_isNaN_of_isFinite (Lawful.isFinite_neg hba.1))).1
      exact exists_ofBounds fun _ _ ↦ OrderedPowers.pow_nonneg (isFinite_maxNum hba) hk.isFinite
        hk.round_eq (.inl hsign) (Lawful.le_trans (le_of_lt hboth.2) hmax)
    next hodd =>
      exact exists_ofBounds fun _ _ ↦ Lawful.le_trans
        (hk.pow_nonpos_of_odd hodd hsign hba.1 (le_of_lt hboth.1))
        (OrderedPowers.pow_nonneg hba.2 hk.isFinite hk.round_eq (.inl hsign) (le_of_lt hboth.2))
  next hboth =>
    split
    · exact exists_overCorners _ a (point k)
    · simp only [powNonpositive, hk.asInteger?_point]
      exact exists_ofBounds fun hnumber _ ↦ minNum_le_maxNum hnumber

/-- **A narrower base has a narrower power.** -/
theorem exists_pow_within (ha : a.Valid) (hba : a.IsBounded) (hba' : a'.IsBounded)
    (haa : a.Within a') (hk : IsIntegral k) (h : a'.pow (point k) = .ok r') (hr' : r'.IsBounded) :
    ∃ r, a.pow (point k) = .ok r ∧ (r.IsBounded → r.Within r') := by
  have hzero' := not_neg_of_pow_point hba' hk h
  have hzero : ¬(k < 0 ∧ a.Contains 0) := fun hneg ↦ hzero' ⟨hneg.1, haa.contains hneg.2⟩
  obtain ⟨r, hr⟩ := exists_pow ha hba hk hzero
  refine ⟨r, hr, fun hbr ↦ ?_⟩
  obtain ⟨⟨v, hv, hlower⟩, w, hw, hupper⟩ | ⟨hboth, heven, rfl⟩ := bounds_of_pow hba hk hr hbr
  · have hmem : ∀ u, a.IsBound u → r'.Contains (Scalar.pow u k) := fun u hu ↦
      contains_pow hba' (hba.isFinite_of_isBound hu) hk
        (haa.contains (ha.contains_of_isBound hba hu)) h hr'
    exact ⟨hlower ▸ (hmem v hv).1, hupper ▸ (hmem w hw).2⟩
  · -- The wider base is on both sides of zero, too.
    have hboth' : a'.lower < 0 ∧ 0 < a'.upper :=
      ⟨lt_of_le_of_lt haa.1 hboth.1, lt_of_lt_of_le hboth.2 haa.2⟩
    have hsign := nonneg_exponent hk hzero ⟨le_of_lt hboth.1, le_of_lt hboth.2⟩
    rw [pow_point hba' hk hzero', if_pos hboth', powStraddling_point hk, if_pos heven] at h
    rw [eq_of_ofBounds h hr']
    obtain ⟨hmaxU, hmaxL⟩ := le_maxNum (Lawful.not_isNaN_of_isFinite hba'.2)
      (Lawful.not_isNaN_of_isFinite (Lawful.isFinite_neg hba'.1))
    have hmax : maxNum a.upper (-a.lower) ≤ maxNum a'.upper (-a'.lower) :=
      maxNum_of (P := fun v ↦ v ≤ _) (Lawful.le_trans haa.2 hmaxU)
        (Lawful.le_trans (Lawful.neg_le_neg haa.1) hmaxL)
    have hmaxNonneg : 0 ≤ maxNum a.upper (-a.lower) :=
      Lawful.le_trans (le_of_lt hboth.2) (le_maxNum (Lawful.not_isNaN_of_isFinite hba.2)
        (Lawful.not_isNaN_of_isFinite (Lawful.isFinite_neg hba.1))).1
    exact ⟨not_not.mp not_isNaN_zero, OrderedPowers.pow_le_pow (isFinite_maxNum hba)
      (isFinite_maxNum hba') hk.isFinite hk.round_eq hsign hmaxNonneg hmax⟩

end Interval

/-- **Narrower operands give a narrower result.** The exponent of a power is one integer. -/
theorem BinaryOp.exists_within [OrderPreserving α] {op : BinaryOp} {b b' : Interval α}
    (ha : a.Valid) (hba : a.IsBounded) (hb : b.Valid) (hbb : b.IsBounded) (hba' : a'.IsBounded)
    (hbb' : b'.IsBounded) (haa : a.Within a') (hbw : b.Within b')
    (hpow : op = .pow → ∃ k, Interval.IsIntegral k ∧ b = .point k ∧ b' = .point k)
    (h : op.onIntervals a' b' = .ok r') (hr' : r'.IsBounded) :
    ∃ r, op.onIntervals a b = .ok r ∧ (r.IsBounded → r.Within r') := by
  have hwithin : ∀ {r}, op ≠ .pow → op.onIntervals a b = .ok r → r.IsBounded → r.Within r' := by
    intro r hop hr hbr
    obtain ⟨hlower, hupper⟩ := isCorner_bounds hop hb hbb hr hbr
    exact ⟨(hlower.contains ha hba hb hbb hba' hbb' haa hbw hpow h hr').1,
      (hupper.contains ha hba hb hbb hba' hbb' haa hbw hpow h hr').2⟩
  cases op with
  | add =>
    obtain ⟨r, hr⟩ := Interval.exists_add ha hba hb hbb
    exact ⟨r, hr, hwithin (by decide) hr⟩
  | sub =>
    obtain ⟨r, hr⟩ := Interval.exists_sub ha hba hb hbb
    exact ⟨r, hr, hwithin (by decide) hr⟩
  | mul =>
    obtain ⟨r, hr⟩ := Interval.exists_mul a b
    exact ⟨r, hr, hwithin (by decide) hr⟩
  | div =>
    have hzero : ¬b.IsZero := by
      intro hzero
      rw [onIntervals, Interval.div, if_pos (hzero.mono hbw)] at h
      cases h
    obtain ⟨r, hr⟩ := Interval.exists_div (a := a) hzero
    exact ⟨r, hr, hwithin (by decide) hr⟩
  | pow =>
    obtain ⟨k, hk, rfl, rfl⟩ := hpow rfl
    exact Interval.exists_pow_within ha hba hba' haa hk h hr'

end ImplicitPlot
