import ImplicitPlot.Proofs.Scalar.Magnitudes
import ImplicitPlot.Proofs.Scalar.Size

/-!
# Counts as binary64 numbers

A natural number with at most fifty-three bits has a binary64 number of its own, and the conversion
finds it: a value that has a number is rounded to that number. So counts are ordered as natural
numbers are, and adding one to a count gives the number of the next count.
-/

namespace ImplicitPlot.Binary64

open Float.Model

open UnpackedFloat (Sign)

open Scalar (Agree IsFinite IsNaN)

variable {a b : Float} {m n : ℕ}

/-! ## Values that have a number -/

/-- **A value that has a number is rounded to it**, up to the sign of a zero. -/
theorem eq_or_zero_of_signedRoundsTo {u v : UnpackedFloat} (hu : u ≠ .notANumber) (hfu : Fits u)
    (hv : v.isFinite = true) (hfv : Fits v) (h : SignedRoundsTo (units v) (rank u)) :
    u = v ∨ (∃ s, u = .zero s) ∧ ∃ s, v = .zero s := by
  have hself := signedRoundsTo_units hv hfv
  have hrank : rank u = rank v := le_antisymm (h.le hself le_rfl) (hself.le h le_rfl)
  exact eq_or_zero_of_rank_eq hu (ne_notANumber_of_isFinite hv) hfu hfv hrank

/-- The finite number has the value of the count. -/
structure IsCount (a : Float) (n : ℕ) : Prop where
  finite : IsFinite a
  units_eq : units (unpacked a) = n * 2 ^ 1074

private theorem exists_units_eq (h : n < 2 ^ 53) :
    ∃ v : UnpackedFloat, v.isFinite = true ∧ Fits v ∧ units v = n * 2 ^ 1074 := by
  rcases Nat.eq_zero_or_pos n with rfl | hpos
  · have hzero : units (.zero .positive) = 0 := rfl
    exact ⟨.zero .positive, rfl, trivial, hzero.trans (zero_mul _).symm⟩
  have hlog : n.log2 < 53 := (Nat.log2_lt hpos.ne').mpr h
  obtain ⟨k, hk⟩ : ∃ k, k = 52 - n.log2 := ⟨_, rfl⟩
  have hmantissa : 2 ^ 52 ≤ n * 2 ^ k ∧ n * 2 ^ k < 2 ^ 53 := by
    have hshift : n.log2 + k = 52 := by omega
    have hsucc : n.log2 + 1 + k = 53 := by omega
    rw [← hshift, ← hsucc, pow_add, pow_add]
    exact ⟨Nat.mul_le_mul_right _ (Nat.log2_self_le hpos.ne'),
      Nat.mul_lt_mul_of_pos_right Nat.lt_log2_self (by positivity)⟩
  refine ⟨.finite .positive (n * 2 ^ k) (-k) (by positivity), rfl,
    ⟨by omega, by omega, hmantissa.2, fun _ ↦ hmantissa.1⟩, ?_⟩
  have hpowers : n * 2 ^ k * 2 ^ (-(k : ℤ) + 1074).toNat = n * 2 ^ 1074 := by
    rw [mul_assoc, ← pow_add]
    congr 2
    omega
  rw [units, hpowers]
  change ((n * 2 ^ 1074 : ℕ) : ℤ) = _
  rw [Nat.cast_mul, Nat.cast_pow, Nat.cast_ofNat]

theorem IsCount.of_signedRoundsTo (hn : n < 2 ^ 53) (hnumber : ¬IsNaN a)
    (h : SignedRoundsTo (n * 2 ^ 1074) (rank (unpacked a))) : IsCount a n := by
  obtain ⟨v, hfinite, hfits, hunits⟩ := exists_units_eq hn
  rw [← hunits] at h
  rcases eq_or_zero_of_signedRoundsTo (mt isNaN_iff.mpr hnumber) (fits_unpacked a) hfinite hfits h
    with heq | ⟨⟨s, hs⟩, t, rfl⟩
  · exact ⟨isFinite_iff.mpr (heq ▸ hfinite), heq ▸ hunits⟩
  · exact ⟨isFinite_iff.mpr (hs ▸ rfl), hs ▸ hunits⟩

/-! ## Counts -/

namespace IsCount

theorem one : IsCount 1 1 := ⟨isFinite_one, by rw [units_one, Nat.cast_one, one_mul]⟩

/-- **Counts are ordered as natural numbers.** -/
theorem le_iff (ha : IsCount a m) (hb : IsCount b n) : a ≤ b ↔ m ≤ n := by
  rw [le_iff_units_le ha.finite hb.finite, ha.units_eq, hb.units_eq,
    mul_le_mul_iff_left₀ (pow_pos two_pos 1074), Int.ofNat_le]

theorem nonneg (ha : IsCount a n) : 0 ≤ a := by
  rw [le_iff_units_le isFinite_zero ha.finite, ha.units_eq]
  exact mul_nonneg (Int.natCast_nonneg n) (pow_pos two_pos 1074).le

theorem eq (ha : IsCount a n) (hb : IsCount b n) (hpos : 0 < n) : a = b := by
  have hagree : Agree a b := ⟨(ha.le_iff hb).mpr le_rfl, (hb.le_iff ha).mpr le_rfl⟩
  refine (eq_or_zero_of_agree hagree).resolve_right fun ⟨hzero, _⟩ ↦ ?_
  obtain ⟨s, hs⟩ := agree_zero_iff.mp hzero
  have hunits := ha.units_eq
  rw [hs] at hunits
  exact (mul_pos (Int.natCast_pos.mpr hpos) (pow_pos two_pos 1074)).ne hunits

/-- **The next count is one more.** -/
theorem add_one (ha : IsCount a n) (hb : IsCount b (n + 1)) (hn : n + 1 < 2 ^ 53) : a + 1 = b := by
  have hnumber : ¬IsNaN (a + 1) :=
    not_isNaN_add ha.finite (Scalar.Lawful.not_isNaN_of_isFinite isFinite_one)
  refine eq (n := n + 1) (.of_signedRoundsTo hn hnumber ?_) hb n.succ_pos
  have hsum := signedRoundsTo_add (isFinite_iff.mp ha.finite) (isFinite_iff.mp isFinite_one)
    (fits_unpacked a) (fits_unpacked 1)
  rwa [ha.units_eq, units_one, ← add_one_mul, ← Nat.cast_add_one, ← unpacked_add] at hsum

/-- A product with one is the number of the same count. -/
theorem mul_one (ha : IsCount a n) (hn : n < 2 ^ 53) : IsCount (a * 1) n := by
  refine .of_signedRoundsTo hn (not_isNaN_mul ha.finite isFinite_one) (.inl ⟨?_, ?_⟩)
  · exact mul_nonneg (Int.natCast_nonneg n) (pow_pos two_pos 1074).le
  · have hround := roundsTo_mul ha.nonneg one.nonneg ha.finite isFinite_one
    rw [ha.units_eq, units_one, Int.cast_mul, Int.cast_pow, Int.cast_ofNat,
      mul_div_cancel_right₀ _ (pow_pos two_pos 1074).ne'] at hround
    rwa [Int.cast_mul, Int.cast_pow, Int.cast_ofNat]

end IsCount

theorem isCount_toFloat (h : n < 2 ^ 53) : IsCount n.toUInt64.toFloat n := by
  have hword : n.toUInt64.toNat = n := Nat.mod_eq_of_lt (by omega)
  have hconvert : unpacked n.toUInt64.toFloat
      = encoded (UnpackedFloat.normalize .binary64 (n.toUInt64.toNat : ℤ) 0 .positive) := rfl
  rw [hword] at hconvert
  refine .of_signedRoundsTo h ?_ ?_
  · rw [isNaN_iff, hconvert]
    exact unpack_pack_ne_notANumber (Unpacked.normalize_ne_notANumber _ _ _ _)
  · have hround := signedRoundsTo_normalize (s := .positive) (e := 0) n (by decide)
    have hexponent : ((0 : ℤ) + 1074).toNat = 1074 := rfl
    rwa [hexponent, ← hconvert] at hround

/-- **A natural number of at most fifty-three bits is converted exactly.** -/
theorem isCount_ofNat (h : n < 2 ^ 53) : IsCount (.ofNat n) n := by
  have hconvert : Float.ofNat n = n.toUInt64.toFloat * 1 := by
    have hone : Float.exactlyRepresentablePowersOfTen[0] = 1 := by decide +kernel
    rw [← hone]
    exact dif_pos ⟨h, by decide⟩
  rw [hconvert]
  exact (isCount_toFloat h).mul_one h

theorem ofNat_add_one (h : n + 1 < 2 ^ 53) : Float.ofNat n + 1 = .ofNat (n + 1) :=
  (isCount_ofNat (Nat.lt_of_succ_lt h)).add_one (isCount_ofNat h) h

end ImplicitPlot.Binary64
