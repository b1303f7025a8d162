import Mathlib
import ImplicitPlot.Formula.Point
import ImplicitPlot.Interval.Power
import ImplicitPlot.Proofs.Interval.Inclusion
import ImplicitPlot.Proofs.Scalar.ExactReal

/-!
# Powers over a range of exponents

What the power of an interval encloses when its exponent is an interval as well, over real numbers.
The powers of a base that is nowhere negative are between those of the four corners, since a real
power is monotone in either argument. A negative value has powers for exponents near an integer
only, and they have the sign of an odd one. A base on both sides of zero has values of both kinds,
and here the enclosure depends on the exponents: unless they stand for one odd integer, the power is
said to be nowhere negative, so that the negative powers are missed if there is an odd integer among
several exponents (`pow_encloses_iff`).
-/

namespace ImplicitPlot.Interval

open Scalar Exact

variable {a e r : Interval ℝ} {v t p m k : ℝ} {n : ℤ}

/-! ## Powers between others -/

theorem liesBetween_rpow_exponent (hm : 0 ≤ m) (hside : 0 ≤ e.lower ∨ 0 < m)
    (ht : e.Contains t) : LiesBetween (m ^ e.lower) (m ^ e.upper) (m ^ t) := by
  rcases le_total 1 m with hone | hone
  · exact .inl ⟨Real.rpow_le_rpow_of_exponent_le hone ht.1,
      Real.rpow_le_rpow_of_exponent_le hone ht.2⟩
  · rcases hside with he | hpos
    · exact .inr ⟨Real.rpow_le_rpow_of_exponent_ge' hm hone (he.trans ht.1) ht.2,
        Real.rpow_le_rpow_of_exponent_ge' hm hone he ht.1⟩
    · exact .inr ⟨Real.rpow_le_rpow_of_exponent_ge hpos hone ht.2,
        Real.rpow_le_rpow_of_exponent_ge hpos hone ht.1⟩

theorem liesBetween_rpow_base (hlower : 0 ≤ a.lower) (hside : 0 ≤ t ∨ 0 < a.lower)
    (hv : a.Contains v) : LiesBetween (a.lower ^ t) (a.upper ^ t) (v ^ t) := by
  rcases le_total 0 t with ht | ht
  · exact .inl ⟨Real.rpow_le_rpow hlower hv.1 ht, Real.rpow_le_rpow (hlower.trans hv.1) hv.2 ht⟩
  · rcases hside with ht' | hpos
    · obtain rfl : t = 0 := le_antisymm ht ht'
      simp only [Real.rpow_zero]
      exact .self (ExactReal.not_isNaN 1)
    · exact .inr ⟨Real.rpow_le_rpow_of_nonpos (hpos.trans_le hv.1) hv.2 ht,
        Real.rpow_le_rpow_of_nonpos hpos hv.1 ht⟩

private theorem liesBetween_zpow_of_nonpos (hupper : a.upper ≤ 0) (hside : 0 ≤ n ∨ a.upper < 0)
    (hv : a.Contains v) : LiesBetween (a.lower ^ n) (a.upper ^ n) (v ^ n) := by
  have hnegated : LiesBetween ((-a.lower) ^ n) ((-a.upper) ^ n) ((-v) ^ n) := by
    have hbase := liesBetween_rpow_base (a := ⟨-a.upper, -a.lower⟩) (t := n) (v := -v)
      (neg_nonneg.mpr hupper) (hside.imp Int.cast_nonneg_iff.mpr neg_pos.mpr)
      ⟨neg_le_neg hv.2, neg_le_neg hv.1⟩
    simp only [Real.rpow_intCast] at hbase
    exact hbase.symm
  rcases Int.even_or_odd n with heven | hodd
  · rwa [heven.neg_zpow, heven.neg_zpow, heven.neg_zpow] at hnegated
  · rw [hodd.neg_zpow, hodd.neg_zpow, hodd.neg_zpow] at hnegated
    have hpow := hnegated.neg
    rwa [neg_neg, neg_neg, neg_neg] at hpow

/-! ## Exponents that stand for one integer -/

theorem exists_of_asInteger? (h : e.asInteger? = some k) :
    ∃ n : ℤ, k = n ∧ ∀ t, e.Contains t → |t - n| ≤ zeroTolerance := by
  rw [asInteger?] at h
  split at h
  next hnear =>
    refine ⟨nearest e.lower, (Option.some.inj h).symm, fun t ht ↦ ?_⟩
    obtain ⟨hlower, -⟩ := abs_le.mp hnear.2.1
    obtain ⟨-, hupper⟩ := abs_le.mp hnear.2.2
    exact abs_le.mpr ⟨hlower.trans (sub_le_sub_right ht.1 _),
      (sub_le_sub_right ht.2 _).trans hupper⟩
  next => cases h

theorem asInteger?_eq_none (h : zeroTolerance < e.upper - e.lower) : e.asInteger? = none :=
  if_neg fun hnear ↦ not_lt.mpr hnear.1 h

theorem nonneg_of_near (ht : 0 ≤ t) (hn : |t - n| ≤ zeroTolerance) : 0 ≤ n := by
  have hnear : |t - n| < 1 / 2 := hn.trans_lt ExactReal.zeroTolerance_lt_half
  have hcast : ((-1 : ℤ) : ℝ) < n := by
    push_cast
    linarith [(abs_lt.mp hnear).2]
  have hint : -1 < n := Int.cast_lt.mp hcast
  omega

/-- The exponent is near an odd integer. -/
def IsNearlyOdd (t : ℝ) : Prop :=
  |t - Scalar.round t| ≤ zeroTolerance ∧ ¬IsEven (Scalar.round t)

/-! ## The power of a value -/

theorem power_cases (h : BinaryOp.pow.onNumbers v t = .ok p) :
    0 ≤ v ∧ p = v ^ t ∨
      v < 0 ∧ |t - nearest t| ≤ zeroTolerance ∧ p = v ^ nearest t := by
  rw [BinaryOp.onNumbers] at h
  split at h
  next hneg =>
    split at h
    · cases h
    next hnear =>
      cases h
      exact .inr ⟨hneg, not_lt.mp hnear, Real.rpow_intCast v (nearest t)⟩
  next hneg =>
    cases h
    exact .inl ⟨not_lt.mp hneg, rfl⟩

theorem power_of_neg (hv : v < 0) (ht : |t - nearest t| ≤ zeroTolerance) :
    BinaryOp.pow.onNumbers v t = .ok (v ^ nearest t) := by
  rw [BinaryOp.onNumbers, if_pos hv, ← Real.rpow_intCast]
  exact if_neg (not_lt.mpr ht)

/-- The interval holds the power `p` of `v` to `t`, up to the rounding of the exponent: it holds a
number with the sign of `p`, and with the magnitude of a power of `v` to `t` or to the integer for
which `t` stands. -/
def EnclosesPower (r : Interval ℝ) (v t p : ℝ) : Prop :=
  ∃ s w, (s = t ∨ s = Scalar.round t) ∧ |s - t| ≤ zeroTolerance ∧
    r.Contains w ∧ |w| = |v| ^ s ∧ 0 ≤ p * w

theorem enclosesPower_of_near (h : BinaryOp.pow.onNumbers v t = .ok p)
    (hn : |t - n| ≤ zeroTolerance) (hr : r.Contains (v ^ n)) : r.EnclosesPower v t p := by
  have hnearest : nearest t = n := ExactReal.nearest_eq_of_le hn
  refine ⟨n, v ^ n, .inr (congrArg Int.cast hnearest.symm), ?_, hr, ?_, ?_⟩
  · rwa [abs_sub_comm]
  · rw [abs_zpow, Real.rpow_intCast]
  · rcases power_cases h with ⟨hv, rfl⟩ | ⟨-, -, rfl⟩
    · exact mul_nonneg (Real.rpow_nonneg hv t) (zpow_nonneg hv n)
    · rw [hnearest]
      exact mul_self_nonneg _

theorem enclosesPower_of_nonneg (hp : 0 ≤ p) (hr : r.Contains (|v| ^ t)) :
    r.EnclosesPower v t p := by
  have hmagnitude : 0 ≤ |v| ^ t := Real.rpow_nonneg (abs_nonneg v) t
  refine ⟨t, |v| ^ t, .inl rfl, ?_, hr, abs_of_nonneg hmagnitude, mul_nonneg hp hmagnitude⟩
  rw [sub_self, abs_zero]
  exact (Lawful.zeroTolerance_pos (α := ℝ)).le

theorem not_enclosesPower_of_neg (hv : v ≠ 0) (hp : p < 0) (hr : 0 ≤ r.lower) :
    ¬r.EnclosesPower v t p := by
  rintro ⟨s, w, -, -, hw, hmagnitude, hsign⟩
  have hpos : 0 < |w| := hmagnitude ▸ Real.rpow_pos_of_pos (abs_pos.mpr hv) s
  have hwpos : 0 < w := (hr.trans hw.1).lt_of_ne (abs_pos.mp hpos).symm
  exact not_le.mpr (mul_neg_of_neg_of_pos hp hwpos) hsign

/-! ## Powers by the side of zero -/

@[simp] theorem isBounded (r : Interval ℝ) :
    r.IsBounded :=
  ⟨ExactReal.isFinite _, ExactReal.isFinite _⟩

theorem pow_cases (ha : a.Valid) (h : a.pow e = .ok r) :
    (a.lower < 0 ∧ 0 < a.upper) ∧ 0 ≤ e.lower ∧ a.powStraddling e = .ok r ∨
      0 ≤ a.lower ∧ (0 ≤ e.lower ∨ 0 < a.lower) ∧ overCorners Scalar.pow a e = .ok r ∨
      a.upper ≤ 0 ∧ (0 ≤ e.lower ∨ a.upper < 0) ∧ a.powNonpositive e = .ok r := by
  have hle := ha.lower_le_upper (isBounded a)
  rw [pow, if_neg (not_or.mpr ⟨(isBounded a).not_hasNaN, (isBounded e).not_hasNaN⟩)] at h
  split at h
  · cases h
  next hzero =>
    have hsign : 0 ≤ e.lower ∨ ¬a.Contains 0 :=
      (not_and_or.mp hzero).imp_left not_lt.mp
    split at h
    next hboth =>
      have hcontains : a.Contains 0 := ⟨hboth.1.le, hboth.2.le⟩
      exact .inl ⟨hboth, hsign.resolve_right (not_not_intro hcontains), h⟩
    next hboth =>
      split at h
      next hlower =>
        refine .inr (.inl ⟨hlower, hsign.imp_right fun hout ↦ ?_, h⟩)
        exact not_le.mp fun hle' ↦ hout ⟨hle', hlower.trans hle⟩
      next hlower =>
        have hneg := not_le.mp hlower
        have hupper : a.upper ≤ 0 := not_lt.mp fun hpos ↦ hboth ⟨hneg, hpos⟩
        refine .inr (.inr ⟨hupper, hsign.imp_right fun hout ↦ ?_, h⟩)
        exact not_le.mp fun hle' ↦ hout ⟨hneg.le, hle'⟩

private theorem enclosesPower_of_overCorners (hlower : 0 ≤ a.lower)
    (hside : 0 ≤ e.lower ∨ 0 < a.lower)
    (hv : a.Contains v) (ht : e.Contains t) (h : overCorners Scalar.pow a e = .ok r)
    (hp : BinaryOp.pow.onNumbers v t = .ok p) : r.EnclosesPower v t p := by
  have hv0 : 0 ≤ v := hlower.trans hv.1
  have hupper : 0 ≤ a.upper := hv0.trans hv.2
  have hcontains : r.Contains (v ^ t) := contains_of_overCorners h (isBounded r)
    (liesBetween_rpow_base hlower (hside.imp_left fun he ↦ he.trans ht.1) hv)
    (liesBetween_rpow_exponent hlower hside ht)
    (liesBetween_rpow_exponent hupper (hside.imp_right fun hpos ↦ hpos.trans_le (hv.1.trans hv.2))
      ht)
  rcases power_cases hp with ⟨-, rfl⟩ | ⟨hneg, -⟩
  · refine enclosesPower_of_nonneg (Real.rpow_nonneg hv0 t) ?_
    rwa [abs_of_nonneg hv0]
  · exact absurd hv0 (not_le.mpr hneg)

private theorem enclosesPower_of_powNonpositive (hupper : a.upper ≤ 0)
    (hside : 0 ≤ e.lower ∨ a.upper < 0) (hv : a.Contains v) (ht : e.Contains t)
    (h : a.powNonpositive e = .ok r) (hp : BinaryOp.pow.onNumbers v t = .ok p) :
    r.EnclosesPower v t p := by
  rw [powNonpositive] at h
  split at h
  · cases h
  next k hk =>
    obtain ⟨n, rfl, hnear⟩ := exists_of_asInteger? hk
    have hn : 0 ≤ n ∨ a.upper < 0 :=
      hside.imp_left fun he ↦ nonneg_of_near (he.trans ht.1) (hnear t ht)
    have hbetween : LiesBetween (Scalar.pow a.lower (n : ℝ)) (Scalar.pow a.upper (n : ℝ))
        (v ^ n) := by
      change LiesBetween (a.lower ^ (n : ℝ)) (a.upper ^ (n : ℝ)) (v ^ n)
      rw [Real.rpow_intCast, Real.rpow_intCast]
      exact liesBetween_zpow_of_nonpos hupper hn hv
    refine enclosesPower_of_near hp (hnear t ht) ?_
    rw [eq_of_ofBounds h (isBounded r)]
    split
    · exact ⟨hbetween.symm.minNum_le, hbetween.symm.le_maxNum⟩
    · exact ⟨hbetween.minNum_le, hbetween.le_maxNum⟩

/-! ## Bases on both sides of zero -/

/-- The range from zero to the greatest power of a magnitude. -/
noncomputable def magnitudePowers (a e : Interval ℝ) : Interval ℝ :=
  ⟨0, maxNum (maxNum a.upper (-a.lower) ^ e.lower) (maxNum a.upper (-a.lower) ^ e.upper)⟩

/-- The exponents stand for one odd integer, or else the signs of the powers are dropped. -/
theorem powStraddling_cases (h : a.powStraddling e = .ok r) :
    (∃ n : ℤ, e.asInteger? = some (n : ℝ) ∧ ¬Even n ∧ r = ⟨a.lower ^ n, a.upper ^ n⟩) ∨
      (∀ k, e.asInteger? = some k → IsEven k) ∧ r = magnitudePowers a e := by
  rw [powStraddling] at h
  split at h
  next k hk =>
    split at h
    next heven =>
      refine .inr ⟨fun k' hk' ↦ ?_, eq_of_ofBounds h (isBounded r)⟩
      rw [hk] at hk'
      cases hk'
      exact heven
    next hodd =>
      obtain ⟨n, rfl, -⟩ := exists_of_asInteger? hk
      refine .inl ⟨n, hk, fun heven ↦ hodd ((ExactReal.isEven_intCast_iff n).mpr heven), ?_⟩
      rw [eq_of_ofBounds h (isBounded r), ← Real.rpow_intCast, ← Real.rpow_intCast]
      rfl
  next hk =>
    refine .inr ⟨fun k' hk' ↦ ?_, eq_of_ofBounds h (isBounded r)⟩
    rw [hk] at hk'
    cases hk'

theorem pow_of_bothSides (hlower : a.lower < 0) (hupper : 0 < a.upper) (he : 0 ≤ e.lower)
    (hnone : e.asInteger? = none) : a.pow e = .ok (magnitudePowers a e) := by
  have hmax : 0 ≤ maxNum a.upper (-a.lower) :=
    hupper.le.trans (le_maxNum (ExactReal.not_isNaN a.upper) (ExactReal.not_isNaN (-a.lower))).1
  have hvalid : (magnitudePowers a e).Valid := .inl (maxNum_of (P := fun u : ℝ ↦ 0 ≤ u)
    (Real.rpow_nonneg hmax e.lower) (Real.rpow_nonneg hmax e.upper))
  rw [pow, if_neg (not_or.mpr ⟨(isBounded a).not_hasNaN, (isBounded e).not_hasNaN⟩),
    if_neg fun hneg ↦ not_lt.mpr he hneg.1, if_pos ⟨hlower, hupper⟩, powStraddling, hnone]
  exact (if_neg (isBounded (magnitudePowers a e)).not_hasNaN).trans (if_pos hvalid)

private theorem contains_magnitudePowers (he : 0 ≤ e.lower) (hv : a.Contains v)
    (ht : e.Contains t) :
    (magnitudePowers a e).Contains (|v| ^ t) := by
  obtain ⟨hmaxU, hmaxL⟩ := le_maxNum (ExactReal.not_isNaN a.upper) (ExactReal.not_isNaN (-a.lower))
  have habs : |v| ≤ maxNum a.upper (-a.lower) :=
    abs_le'.mpr ⟨hv.2.trans hmaxU, (neg_le_neg hv.1).trans hmaxL⟩
  have hexponent := liesBetween_rpow_exponent ((abs_nonneg v).trans habs) (.inl he) ht
  exact ⟨Real.rpow_nonneg (abs_nonneg v) t,
    (Real.rpow_le_rpow (abs_nonneg v) habs (he.trans ht.1)).trans hexponent.le_maxNum⟩

private theorem contains_zpow_of_odd (hn : 0 ≤ n) (hodd : ¬Even n) (hv : a.Contains v) :
    Contains ⟨a.lower ^ n, a.upper ^ n⟩ (v ^ n) := by
  lift n to ℕ using hn
  have hmono : StrictMono fun x : ℝ ↦ x ^ n := by
    refine Odd.strictMono_pow (Nat.not_even_iff_odd.mp fun heven ↦ hodd ?_)
    exact_mod_cast heven
  simp only [zpow_natCast]
  exact ⟨hmono.monotone hv.1, hmono.monotone hv.2⟩

private theorem power_nonneg (hp : BinaryOp.pow.onNumbers v t = .ok p) (hodd : ¬IsNearlyOdd t) :
    0 ≤ p := by
  rcases power_cases hp with ⟨hv, rfl⟩ | ⟨-, hnear, rfl⟩
  · exact Real.rpow_nonneg hv t
  · have heven : IsEven (nearest t : ℝ) := not_not.mp fun hne ↦ hodd ⟨hnear, hne⟩
    exact ((ExactReal.isEven_intCast_iff _).mp heven).zpow_nonneg v

private theorem exists_power_neg (hv : v < 0) (ht : IsNearlyOdd t) :
    ∃ p, BinaryOp.pow.onNumbers v t = .ok p ∧ p < 0 := by
  have hodd : Odd (nearest t) := Int.not_even_iff_odd.mp fun heven ↦
    ht.2 ((ExactReal.isEven_intCast_iff _).mpr heven)
  exact ⟨v ^ nearest t, power_of_neg hv ht.1, hodd.zpow_neg hv⟩

/-- No power is missed unless the exponents are several and an odd integer is among them. -/
theorem enclosesPower_of_powStraddling (he : 0 ≤ e.lower) (hv : a.Contains v) (ht : e.Contains t)
    (h : a.powStraddling e = .ok r) (hp : BinaryOp.pow.onNumbers v t = .ok p)
    (hodd : e.asInteger? = none → ¬IsNearlyOdd t) : r.EnclosesPower v t p := by
  rcases powStraddling_cases h with ⟨n, hn, hodd', rfl⟩ | ⟨heven, rfl⟩
  · obtain ⟨n', hn', hnear⟩ := exists_of_asInteger? hn
    obtain rfl : n = n' := by exact_mod_cast hn'
    exact enclosesPower_of_near hp (hnear t ht)
      (contains_zpow_of_odd (nonneg_of_near (he.trans ht.1) (hnear t ht)) hodd' hv)
  · refine enclosesPower_of_nonneg (power_nonneg hp ?_) (contains_magnitudePowers he hv ht)
    cases hk : e.asInteger? with
    | none => exact hodd hk
    | some k =>
      obtain ⟨n, rfl, hnear⟩ := exists_of_asInteger? hk
      have hround : Scalar.round t = (n : ℝ) :=
        congrArg Int.cast (ExactReal.nearest_eq_of_le (hnear t ht))
      exact fun hnearly ↦ hnearly.2 (hround ▸ heven n hk)

/-- **What a power encloses.** The power of an interval to an interval of exponents encloses the
powers of all values, unless the base is on both sides of zero and an odd integer is among several
exponents. -/
theorem pow_encloses_iff (ha : a.Valid) (h : a.pow e = .ok r) :
    (∀ v t p, a.Contains v → e.Contains t → BinaryOp.pow.onNumbers v t = .ok p →
        r.EnclosesPower v t p) ↔
      ¬((a.lower < 0 ∧ 0 < a.upper) ∧ e.asInteger? = none ∧
        ∃ t, e.Contains t ∧ IsNearlyOdd t) := by
  rcases pow_cases ha h with ⟨hboth, he, h⟩ | ⟨hlower, hside, h⟩ | ⟨hupper, hside, h⟩
  · constructor
    · rintro hencloses ⟨-, hnone, t, ht, hodd⟩
      -- The least value has a negative power, but the power starts at zero.
      obtain ⟨p, hp, hneg⟩ := exists_power_neg hboth.1 hodd
      have hlower : a.Contains a.lower := ha.contains_of_isBound (isBounded a) (.inl rfl)
      have henclosed := hencloses a.lower t p hlower ht hp
      rcases powStraddling_cases h with ⟨n, hn, -⟩ | ⟨-, rfl⟩
      · rw [hnone] at hn
        cases hn
      · exact not_enclosesPower_of_neg hboth.1.ne hneg (le_refl (0 : ℝ)) henclosed
    · intro hclear v t p hv ht hp
      exact enclosesPower_of_powStraddling he hv ht h hp
        fun hnone hodd ↦ hclear ⟨hboth, hnone, t, ht, hodd⟩
  · refine iff_of_true (fun v t p hv ht hp ↦ ?_) fun hodd ↦ not_lt.mpr hlower hodd.1.1
    exact enclosesPower_of_overCorners hlower hside hv ht h hp
  · refine iff_of_true (fun v t p hv ht hp ↦ ?_) fun hodd ↦ not_lt.mpr hupper hodd.1.2
    exact enclosesPower_of_powNonpositive hupper hside hv ht h hp

/-- The exponents from two to two and a half are not near an odd integer. -/
theorem pow_encloses_aboveTwo :
    (⟨-2, 3⟩ : Interval ℝ).Valid ∧
      pow ⟨-2, 3⟩ ⟨2, 5 / 2⟩ = .ok (magnitudePowers ⟨-2, 3⟩ ⟨2, 5 / 2⟩) ∧
      ∀ v t p, Contains ⟨-2, 3⟩ v → Contains ⟨2, 5 / 2⟩ t →
        BinaryOp.pow.onNumbers v t = .ok p →
        (magnitudePowers ⟨-2, 3⟩ ⟨2, 5 / 2⟩).EnclosesPower v t p := by
  have hvalid : (⟨-2, 3⟩ : Interval ℝ).Valid := .inl (by norm_num : (-2 : ℝ) ≤ 3)
  have hnone : (⟨2, 5 / 2⟩ : Interval ℝ).asInteger? = none :=
    asInteger?_eq_none (ExactReal.zeroTolerance_lt_half.trans_le (by norm_num))
  have hpow := pow_of_bothSides (a := ⟨-2, 3⟩) (by norm_num) (by norm_num) (by norm_num) hnone
  refine ⟨hvalid, hpow, (pow_encloses_iff hvalid hpow).mpr ?_⟩
  rintro ⟨-, -, t, ht, hnear, hodd⟩
  obtain ⟨hlower, hupper⟩ := abs_le.mp hnear
  have htolerance := ExactReal.zeroTolerance_lt_half
  change -zeroTolerance ≤ t - (nearest t : ℝ) at hlower
  change t - (nearest t : ℝ) ≤ zeroTolerance at hupper
  have habove : ((1 : ℤ) : ℝ) < nearest t := by
    push_cast
    linarith [ht.1]
  have hbelow : (nearest t : ℝ) < (3 : ℤ) := by
    push_cast
    linarith [ht.2]
  have htwo : nearest t = 2 := by
    have h1 := Int.cast_lt.mp habove
    have h3 := Int.cast_lt.mp hbelow
    omega
  exact hodd ((ExactReal.isEven_intCast_iff _).mpr (htwo ▸ even_two))

/-- The square of the base is enclosed, the base itself is not. -/
theorem power_one_missed :
    pow (⟨-2, 1⟩ : Interval ℝ) ⟨1, 2⟩ = .ok ⟨0, 4⟩ ∧
      Contains ⟨-2, 1⟩ (-2 : ℝ) ∧ Contains ⟨1, 2⟩ (1 : ℝ) ∧
      BinaryOp.pow.onNumbers (-2 : ℝ) 1 = .ok (-2) ∧
      ¬EnclosesPower ⟨0, 4⟩ (-2) 1 (-2) := by
  have hnone : (⟨1, 2⟩ : Interval ℝ).asInteger? = none :=
    asInteger?_eq_none (ExactReal.zeroTolerance_lt_half.trans_le (by norm_num))
  have hrange : magnitudePowers ⟨-2, 1⟩ ⟨1, 2⟩ = ⟨0, 4⟩ := by
    norm_num [magnitudePowers, ExactReal.maxNum_eq_max]
  have hnearest : nearest (1 : ℝ) = 1 := by
    exact_mod_cast nearest_intCast (K := ℝ) 1
  have hpower : BinaryOp.pow.onNumbers (-2 : ℝ) 1 = .ok (-2) := by
    rw [power_of_neg (by norm_num), hnearest, zpow_one]
    rw [hnearest, Int.cast_one, sub_self, abs_zero]
    exact (Lawful.zeroTolerance_pos (α := ℝ)).le
  refine ⟨?_, ?_, ?_, hpower, not_enclosesPower_of_neg (by norm_num) (by norm_num) le_rfl⟩
  · rw [← hrange]
    exact pow_of_bothSides (by norm_num) (by norm_num) (by norm_num) hnone
  · constructor <;> norm_num
  · constructor <;> norm_num

end ImplicitPlot.Interval
