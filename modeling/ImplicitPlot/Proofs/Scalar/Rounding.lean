import Mathlib
import ImplicitPlot.Proofs.Scalar.Rank

/-!
# Rounding of binary64 numbers

Rounding keeps the order, across all exponents and up to overflow. The proof needs no error bounds.
A rounded mantissa is nearest to its value, and even on a tie (`IsNearestEven`), and two such
mantissas are ordered as their values. The number that is encoded then has a rank, and by
`RoundsTo` this rank depends on the exact value alone: the exponent is the one that leaves
fifty-three bits, and what has no room below the greatest exponent has the rank of infinity.

The bits that a shift drops are kept as a round bit and a sticky bit (`Represents`), so a result
that is computed with any number of bits, or with a remainder, is rounded as its exact value would
be.
-/

namespace ImplicitPlot.Binary64

open Float.Model

open UnpackedFloat (Sign Accuracy ExtendedMantissa)

/-! ## Nearest mantissas -/

/-- The number is nearest to a value, and even if another number is as near. -/
structure IsNearestEven (r : ℕ) (x : ℚ) : Prop where
  near : |(r : ℚ) - x| ≤ 1 / 2
  even_of_tie : |(r : ℚ) - x| = 1 / 2 → Even r

namespace IsNearestEven

variable {r s : ℕ} {x y : ℚ}

theorem natCast (r : ℕ) : IsNearestEven r r := by
  constructor <;> norm_num

theorem of_lt (hlower : x - 1 / 2 < r) (hupper : r < x + 1 / 2) : IsNearestEven r x := by
  have hlt : |(r : ℚ) - x| < 1 / 2 := abs_lt.mpr ⟨by linarith, by linarith⟩
  exact ⟨hlt.le, fun htie ↦ absurd htie hlt.ne⟩

/-- Rounding keeps the order: numbers that were exchanged would be the two next to one tie, and only
one of them is even. -/
theorem le (hr : IsNearestEven r x) (hs : IsNearestEven s y) (hxy : x ≤ y) : r ≤ s := by
  by_contra hlt
  obtain ⟨-, hrx⟩ := abs_le.mp hr.near
  obtain ⟨hsy, -⟩ := abs_le.mp hs.near
  have hsucc : r = s + 1 := by
    have hupper : (r : ℚ) ≤ (s + 1 : ℕ) := by
      push_cast
      linarith
    have hupper := Nat.cast_le.mp hupper
    omega
  subst hsucc
  push_cast at hrx
  have hx : x = s + 1 / 2 := by linarith
  have hy : y = s + 1 / 2 := by linarith
  have hsucc_even : Even (s + 1) := by
    refine hr.even_of_tie ?_
    rw [hx]
    push_cast
    norm_num [abs_of_pos]
  have heven : Even s := by
    refine hs.even_of_tie ?_
    rw [hy]
    norm_num [abs_of_pos]
  exact Nat.even_add_one.mp hsucc_even heven

/-- Fifty-three bits before rounding are at most one more bit after it. -/
theorem le_of_lt {j : ℕ} (h : IsNearestEven r (x / 2 ^ j)) (hx : x < 2 ^ (53 + j)) :
    r ≤ 2 ^ 53 := by
  refine h.le (.natCast _) ?_
  rw [div_le_iff₀ (by positivity), Nat.cast_pow, Nat.cast_ofNat, ← pow_add]
  exact hx.le

theorem ge_of_le {j : ℕ} (h : IsNearestEven r (x / 2 ^ j)) (hx : 2 ^ (52 + j) ≤ x) :
    2 ^ 52 ≤ r := by
  refine IsNearestEven.le (.natCast _) h ?_
  rwa [le_div_iff₀ (by positivity), Nat.cast_pow, Nat.cast_ofNat, ← pow_add]

end IsNearestEven

/-- The value is that of the mantissa and the round bit, which counts half, and less than half; the
sticky bit tells whether that rest is there. -/
def Represents (em : ExtendedMantissa) (x : ℚ) : Prop :=
  ∃ rest : ℚ, 0 ≤ rest ∧ rest < 1 / 2 ∧ (em.stickyBit = false ↔ rest = 0) ∧
    x = em.mantissa + em.roundBit.toNat / 2 + rest

namespace Represents

variable {em : ExtendedMantissa} {x : ℚ}

theorem of_exact (m : ℕ) : Represents (.ofMantissaAndAccuracy m .exact) m :=
  ⟨0, le_rfl, by norm_num, iff_of_true rfl rfl, by simp [ExtendedMantissa.ofMantissaAndAccuracy]⟩

private theorem mantissa_le (h : Represents em x) :
    (em.mantissa : ℚ) ≤ x ∧ x < em.mantissa + 1 := by
  obtain ⟨rest, hpos, hlt, -, rfl⟩ := h
  have hbit : (em.roundBit.toNat : ℚ) ≤ 1 := by exact_mod_cast em.roundBit.toNat_le
  have hbit' : (0 : ℚ) ≤ em.roundBit.toNat := Nat.cast_nonneg _
  constructor <;> linarith

private theorem isNearestEven (h : Represents em x) : IsNearestEven em.roundedMantissa x := by
  obtain ⟨m, round, sticky⟩ := em
  obtain ⟨rest, hpos, hlt, hsticky, rfl⟩ := h
  dsimp only at hsticky ⊢
  match round, sticky with
  | false, false =>
    have hrounded : ExtendedMantissa.roundedMantissa ⟨m, false, false⟩ = m := rfl
    rw [hrounded, hsticky.mp rfl]
    simpa using IsNearestEven.natCast m
  | false, true =>
    have hrounded : ExtendedMantissa.roundedMantissa ⟨m, false, true⟩ = m := rfl
    rw [hrounded]
    refine .of_lt ?_ ?_ <;> norm_num <;> linarith
  | true, false =>
    -- A tie, which goes to the even one of the two neighbours.
    have hrounded : ExtendedMantissa.roundedMantissa ⟨m, true, false⟩ = m + m % 2 := rfl
    have heven : Even (m + m % 2) := by
      rw [Nat.even_iff]
      omega
    rw [hrounded, hsticky.mp rfl]
    refine ⟨?_, fun _ ↦ heven⟩
    rcases Nat.mod_two_eq_zero_or_one m with hmod | hmod
    · rw [hmod]
      norm_num [abs_of_pos]
    · rw [hmod]
      norm_num [abs_of_pos]
  | true, true =>
    have hrounded : ExtendedMantissa.roundedMantissa ⟨m, true, true⟩ = m + 1 := rfl
    have hrest : rest ≠ 0 := fun hzero ↦ Bool.noConfusion (hsticky.mpr hzero)
    have hpos := lt_of_le_of_ne hpos hrest.symm
    rw [hrounded]
    refine .of_lt ?_ ?_ <;> norm_num <;> linarith

theorem shiftRightOne (h : Represents em x) : Represents em.shiftRightOne (x / 2) := by
  obtain ⟨rest, hpos, hlt, hsticky, rfl⟩ := h
  have hbit : (em.roundBit.toNat : ℚ) ≤ 1 := by exact_mod_cast em.roundBit.toNat_le
  have hmantissa : (em.mantissa : ℚ) = 2 * (em.mantissa / 2 : ℕ) + (em.mantissa % 2 : ℕ) := by
    exact_mod_cast (Nat.div_add_mod em.mantissa 2).symm
  have hmod : (em.mantissa % 2 != 0).toNat = em.mantissa % 2 := by
    rcases Nat.mod_two_eq_zero_or_one em.mantissa with hmod | hmod <;> rw [hmod] <;> rfl
  refine ⟨em.roundBit.toNat / 4 + rest / 2, by positivity, by linarith, ?_, ?_⟩
  · change (em.roundBit || em.stickyBit) = false ↔ _
    rw [Bool.or_eq_false_iff, hsticky, ← Bool.toNat_eq_zero]
    constructor
    · rintro ⟨hround, hrest⟩
      rw [hround, hrest]
      norm_num
    · intro hzero
      have hround : (em.roundBit.toNat : ℚ) = 0 := by linarith
      exact ⟨by exact_mod_cast hround, by linarith⟩
  · change _ = ((em.mantissa / 2 : ℕ) : ℚ) + ((em.mantissa % 2 != 0).toNat : ℕ) / 2 + _
    rw [hmod, hmantissa]
    ring

theorem shiftRight (h : Represents em x) (n : ℕ) : Represents (em >>> n) (x / 2 ^ n) := by
  change Represents (Nat.repeat ExtendedMantissa.shiftRightOne n em) _
  induction n with
  | zero => simpa [Nat.repeat] using h
  | succ n ih =>
    rw [Nat.repeat, pow_succ, ← div_div]
    exact ih.shiftRightOne

end Represents

/-! ## Ranks of rounded values -/

/-- A value, in units of the least positive number, is rounded to a number of the given rank: the
exponent leaves a mantissa of fifty-three bits unless it is the least one, the mantissa is the
nearest one, and what is too large for a number goes to infinity. -/
def RoundsTo (x : ℚ) (n : ℤ) : Prop :=
  ∃ j r : ℕ, x < 2 ^ (53 + j) ∧ (0 < j → 2 ^ (52 + j) ≤ x) ∧ IsNearestEven r (x / 2 ^ j) ∧
    n = min (j * 2 ^ 52 + r : ℕ) (2047 * 2 ^ 52)

namespace RoundsTo

variable {x y : ℚ} {n k : ℤ}

theorem nonneg (h : RoundsTo x n) : 0 ≤ n := by
  obtain ⟨j, r, -, -, -, rfl⟩ := h
  omega

/-- **Rounding keeps the order.** The value with the lesser exponent has a mantissa of fifty-three
bits at most, so that its rank is not beyond those of the next exponent. -/
theorem le (h : RoundsTo x n) (h' : RoundsTo y k) (hxy : x ≤ y) : n ≤ k := by
  obtain ⟨i, r, hupper, hlower, hr, rfl⟩ := h
  obtain ⟨j, s, hupper', hlower', hs, rfl⟩ := h'
  have hrank : i * 2 ^ 52 + r ≤ j * 2 ^ 52 + s := by
    rcases lt_trichotomy i j with hlt | rfl | hlt
    · have hr' := hr.le_of_lt hupper
      have hs' := hs.ge_of_le (hlower' (by omega))
      omega
    · have hle := hr.le hs ((div_le_div_iff_of_pos_right (by positivity)).mpr hxy)
      omega
    · have hbits : (2 : ℚ) ^ (53 + j) ≤ 2 ^ (52 + i) :=
        pow_le_pow_right₀ (by norm_num) (by omega)
      exact absurd (hlower (by omega)) (not_le.mpr (hxy.trans_lt (hupper'.trans_le hbits)))
  omega

end RoundsTo

/-! ## Encoded results -/

variable {s : Sign} {m : ℕ} {e : ℤ} {hm : 0 < m}

theorem finite_congr {m' : ℕ} {e' : ℤ} {hm' : 0 < m'} (hmantissa : m = m') (hexponent : e = e') :
    UnpackedFloat.finite s m e hm = .finite s m' e' hm' := by
  subst hmantissa hexponent
  rfl

private theorem exists_decode_eq (h : Fits (.finite s m e hm)) :
    ∃ exponent mantissa, decode s exponent mantissa = .finite s m e hm := by
  obtain ⟨hlower, hupper, hbits, hnormal⟩ := h
  by_cases hsmall : m < 2 ^ 52
  · obtain rfl : e = -1074 := by
      by_contra hne
      exact absurd (hnormal (by omega)) (by omega)
    have hmantissa : (BitVec.ofNat 52 m).toNat = m := by
      rw [BitVec.toNat_ofNat]
      omega
    refine ⟨0#11, .ofNat 52 m, ?_⟩
    rw [decode, if_neg (by decide), if_pos rfl, dif_neg]
    · exact finite_congr hmantissa rfl
    · intro hzero
      have hzero := congrArg BitVec.toNat hzero
      rw [hmantissa] at hzero
      exact absurd hzero hm.ne'
  · have hexponent : (BitVec.ofNat 11 (e + 1075).toNat).toNat = (e + 1075).toNat := by
      rw [BitVec.toNat_ofNat]
      omega
    have hmantissa : (BitVec.ofNat 52 (m - 2 ^ 52)).toNat = m - 2 ^ 52 := by
      rw [BitVec.toNat_ofNat]
      omega
    refine ⟨.ofNat 11 (e + 1075).toNat, .ofNat 52 (m - 2 ^ 52), ?_⟩
    rw [decode, if_neg, if_neg]
    · exact finite_congr (by rw [hmantissa]; omega) (by rw [hexponent]; omega)
    · intro hzero
      have hzero := congrArg BitVec.toNat hzero
      rw [hexponent] at hzero
      change (e + 1075).toNat = 0 at hzero
      omega
    · intro hones
      have hones := congrArg BitVec.toNat hones
      rw [hexponent] at hones
      change (e + 1075).toNat = 2047 at hones
      omega

/-- The number that a result is encoded as. -/
def encoded (u : UnpackedFloat) : UnpackedFloat :=
  .unpack .binary64 (UnpackedFloat.pack .binary64 u)

/-- Encoding keeps numbers whose fields are within their bounds. -/
theorem encoded_of_fits {u : UnpackedFloat} (h : Fits u) : encoded u = u := by
  match u, h with
  | .notANumber, _ => rfl
  | .infinity s, _ => cases s <;> rfl
  | .zero s, _ => cases s <;> rfl
  | .finite s m e hm, h =>
    obtain ⟨exponent, mantissa, hdecode⟩ := exists_decode_eq h
    rw [← hdecode, encoded, unpack_pack_decode]

private theorem rank_encoded (hlower : -1074 ≤ e) (hbits : m < 2 ^ 53)
    (hnormal : -1074 < e → 2 ^ 52 ≤ m) :
    rank (encoded (.finite s m e hm))
      = s.apply (min ((e + 1074) * 2 ^ 52 + m) (2047 * 2 ^ 52)) := by
  by_cases hupper : e ≤ 971
  · have hfits : Fits (.finite s m e hm) := ⟨hlower, hupper, hbits, hnormal⟩
    rw [encoded_of_fits hfits, rank, min_eq_left (by omega)]
  · have hoverflow : encoded (.finite s m e hm) = encoded (.infinity s) := by
      refine congrArg (UnpackedFloat.unpack .binary64) (if_pos ?_)
      change 2 ^ 11 ≤ (e + (1023 : ℕ) + (52 : ℕ)).toNat + 1
      omega
    have hfits : Fits (.infinity s) := trivial
    have hnormal := hnormal (by omega)
    rw [hoverflow, encoded_of_fits hfits, rank, min_eq_right (by omega)]

/-! ## Rounding to a number -/

theorem targetExponent_eq (m : ℕ) (e : ℤ) :
    Format.binary64.targetExponent (totalExponent m e) = max (m.log2 + e - 52) (-1074) := by
  change max ((m.log2 : ℤ) + 1 + e - (53 : ℕ)) (-1074) = _
  congr 1
  omega

theorem shiftToTargetExponent_eq (acc : Accuracy) {k : ℕ}
    (hk : (Format.binary64.targetExponent (totalExponent m e) - e).toNat = k) :
    UnpackedFloat.shiftToTargetExponent .binary64 m e acc
      = (ExtendedMantissa.ofMantissaAndAccuracy m acc >>> k, e + k) := by
  subst hk
  rfl

theorem rank_encoded_dite (hlower : -1074 ≤ e) (hbits : m < 2 ^ 53)
    (hnormal : -1074 < e → 2 ^ 52 ≤ m) :
    rank (encoded (if h : m = 0 then .zero s else .finite s m e (Nat.pos_of_ne_zero h)))
      = s.apply (min ((e + 1074) * 2 ^ 52 + m) (2047 * 2 ^ 52)) := by
  split
  next hzero =>
    obtain rfl : e = -1074 := by omega
    subst hzero
    cases s <;> rfl
  next => exact rank_encoded hlower hbits hnormal

private theorem rank_carry {r : ℕ} {t : ℤ} (hr : r ≤ 2 ^ 53) (ht : -1074 ≤ t)
    (hnormal : -1074 < t → 2 ^ 52 ≤ r) {em : ExtendedMantissa} {t' : ℤ}
    (h : UnpackedFloat.shiftToTargetExponent .binary64 r t .exact = (em, t')) :
    rank (encoded (if h : em.mantissa = 0 then .zero s
        else .finite s em.mantissa t' (Nat.pos_of_ne_zero h)))
      = s.apply (min ((t + 1074) * 2 ^ 52 + r) (2047 * 2 ^ 52)) := by
  rcases hr.lt_or_eq with hlt | rfl
  · have hlog : r.log2 ≤ 52 := by
      rcases Nat.eq_zero_or_pos r with rfl | hpos
      · decide
      · have hlog := (Nat.log2_lt hpos.ne').mpr hlt
        omega
    have hk : (Format.binary64.targetExponent (totalExponent r t) - t).toNat = 0 := by
      rw [targetExponent_eq]
      omega
    rw [shiftToTargetExponent_eq .exact hk, Nat.cast_zero, add_zero] at h
    obtain ⟨rfl, rfl⟩ := Prod.mk.inj h
    exact rank_encoded_dite ht hlt hnormal
  · have hk : (Format.binary64.targetExponent (totalExponent (2 ^ 53) t) - t).toNat = 1 := by
      rw [targetExponent_eq, Nat.log2_two_pow]
      omega
    rw [shiftToTargetExponent_eq .exact hk] at h
    obtain ⟨rfl, rfl⟩ := Prod.mk.inj h
    have hnumber := rank_encoded_dite (s := s) (e := t + (1 : ℕ)) (by omega)
      (show 2 ^ 52 < 2 ^ 53 by decide) fun _ ↦ le_rfl
    refine hnumber.trans (congrArg s.apply ?_)
    push_cast
    congr 1
    ring

theorem two_zpow_pos (k : ℤ) : (0 : ℚ) < 2 ^ k := zpow_pos (by norm_num) k

private theorem log2_bounds {acc : Accuracy} {x : ℚ}
    (hx : Represents (.ofMantissaAndAccuracy m acc) (x / 2 ^ (e + 1074))) :
    (0 < m → 2 ^ (m.log2 + (e + 1074)) ≤ x) ∧ x < 2 ^ (m.log2 + 1 + (e + 1074)) := by
  obtain ⟨hlower, hupper⟩ := hx.mantissa_le
  have hmantissa : (ExtendedMantissa.ofMantissaAndAccuracy m acc).mantissa = m := by
    rcases acc with - | - | - | - <;> rfl
  rw [hmantissa] at hlower hupper
  rw [le_div_iff₀ (two_zpow_pos _)] at hlower
  rw [div_lt_iff₀ (two_zpow_pos _)] at hupper
  have hlog' : ((m : ℚ) + 1) ≤ 2 ^ (m.log2 + 1) := by exact_mod_cast Nat.lt_log2_self
  constructor
  · intro hm
    have hlog : (2 : ℚ) ^ m.log2 ≤ m := by exact_mod_cast Nat.log2_self_le hm.ne'
    calc (2 : ℚ) ^ (m.log2 + (e + 1074)) = 2 ^ m.log2 * 2 ^ (e + 1074) := by
          rw [zpow_add₀ (by norm_num), zpow_natCast]
      _ ≤ m * 2 ^ (e + 1074) := mul_le_mul_of_nonneg_right hlog (two_zpow_pos _).le
      _ ≤ x := hlower
  · calc x < ((m : ℚ) + 1) * 2 ^ (e + 1074) := hupper
      _ ≤ 2 ^ (m.log2 + 1) * 2 ^ (e + 1074) :=
        mul_le_mul_of_nonneg_right hlog' (two_zpow_pos _).le
      _ = 2 ^ (m.log2 + 1 + (e + 1074)) := by
        rw [← zpow_natCast, ← zpow_add₀ (by norm_num), Nat.cast_add, Nat.cast_one]

/-- **A value is rounded.** If the bits at hand are enough for the mantissa, the rank of the result
is one to which the value rounds. A mantissa of zero is enough below the least positive number. -/
theorem exists_roundsTo {acc : Accuracy} {x : ℚ}
    (hbits : e ≤ max (m.log2 + e - 52) (-1074))
    (hx : Represents (.ofMantissaAndAccuracy m acc) (x / 2 ^ (e + 1074))) :
    ∃ n, RoundsTo x n ∧
      rank (encoded (UnpackedFloat.roundWithAccuracy .binary64 s m e acc)) = s.apply n := by
  obtain ⟨t, ht⟩ : ∃ t, t = max (m.log2 + e - 52) (-1074) := ⟨_, rfl⟩
  obtain ⟨k, hk⟩ : ∃ k : ℕ, t = e + k := ⟨(t - e).toNat, by omega⟩
  obtain ⟨j, hj⟩ : ∃ j : ℕ, t = j - 1074 := ⟨(t + 1074).toNat, by omega⟩
  obtain ⟨hvalue, hvalue'⟩ := log2_bounds hx
  have hupper : x < 2 ^ (53 + j) := by
    refine hvalue'.trans_le ?_
    rw [← zpow_natCast]
    exact zpow_le_zpow_right₀ (by norm_num) (by omega)
  have hlower : 0 < j → 2 ^ (52 + j) ≤ x := by
    intro hpos
    have hm : 0 < m := by
      by_contra hzero
      obtain rfl : m = 0 := by omega
      rw [Nat.log2_zero] at hbits ht
      omega
    refine le_trans ?_ (hvalue hm)
    rw [← zpow_natCast]
    exact zpow_le_zpow_right₀ (by norm_num) (by omega)
  have hrep : Represents (ExtendedMantissa.ofMantissaAndAccuracy m acc >>> k) (x / 2 ^ j) := by
    have hshift := hx.shiftRight k
    rwa [div_div, ← zpow_natCast, ← zpow_add₀ (by norm_num), show e + 1074 + k = j by omega,
      zpow_natCast] at hshift
  have hnear := hrep.isNearestEven
  have hr : (ExtendedMantissa.ofMantissaAndAccuracy m acc >>> k).roundedMantissa ≤ 2 ^ 53 :=
    hnear.le_of_lt hupper
  have hnormal : -1074 < t →
      2 ^ 52 ≤ (ExtendedMantissa.ofMantissaAndAccuracy m acc >>> k).roundedMantissa :=
    fun hlt ↦ hnear.ge_of_le (hlower (by omega))
  refine ⟨_, ⟨j, _, hupper, hlower, hnear, rfl⟩, ?_⟩
  rw [UnpackedFloat.roundWithAccuracy,
    shiftToTargetExponent_eq acc (k := k) (by rw [targetExponent_eq]; omega), ← hk]
  refine (rank_carry hr (by omega) hnormal rfl).trans (congrArg s.apply ?_)
  push_cast
  congr 1
  omega

end ImplicitPlot.Binary64
