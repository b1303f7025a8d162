import ImplicitPlot.Proofs.Scalar.Integral

/-!
# Products and quotients

The product of two finite numbers is their exact product, rounded, and their quotient is the exact
quotient, rounded, if the divisor is not zero. The sign of the result is that of the exact one. So
products of magnitudes are ordered as their factors are, up to infinity, and a quotient by one or
more is no greater than the magnitude that is divided.

A quotient is computed with as many bits as its mantissa needs, and with its remainder for the bits
that are dropped (`represents_fraction`). Below the least positive number no bits are needed.
-/

namespace ImplicitPlot.Binary64

open Float.Model

open UnpackedFloat (Sign Accuracy ExtendedMantissa)

open Scalar (IsFinite IsNaN)

variable {s t : Sign} {m n : ℕ} {e d : ℤ} {hm : 0 < m} {hn : 0 < n} {u v : UnpackedFloat}

/-! ## Rounded products -/

private theorem exists_roundsTo_mul (hu : Fits (.finite s m e hm)) (hv : Fits (.finite t n d hn)) :
    ∃ k, RoundsTo (((m * 2 ^ (e + 1074).toNat : ℕ) : ℚ) * (n * 2 ^ (d + 1074).toNat : ℕ)
        / 2 ^ 1074) k ∧
      rank (encoded (UnpackedFloat.mul .binary64 (.finite s m e hm) (.finite t n d hn)))
        = (s * t).apply k := by
  obtain ⟨helower, -, -, henormal⟩ := hu
  obtain ⟨hdlower, -, -, hdnormal⟩ := hv
  have hvalue : (((m * 2 ^ (e + 1074).toNat : ℕ) : ℚ) * (n * 2 ^ (d + 1074).toNat : ℕ) / 2 ^ 1074)
      / 2 ^ (e + d + 1074) = (m * n : ℕ) := by
    rw [div_div, div_eq_iff (mul_pos (by positivity) (two_zpow_pos _)).ne']
    push_cast
    rw [← zpow_natCast, ← zpow_natCast, ← zpow_natCast, Int.toNat_of_nonneg (by omega),
      Int.toNat_of_nonneg (by omega), ← zpow_add₀ (by norm_num), mul_mul_mul_comm,
      ← zpow_add₀ (by norm_num)]
    congr 2
    push_cast
    ring
  refine exists_roundsTo ?_ (hvalue ▸ .of_exact _)
  -- A factor with fifty-three bits leaves as many in the product.
  by_cases hlarge : 2 ^ 52 ≤ m * n
  · have hlog : 52 ≤ (m * n).log2 := (Nat.le_log2 (Nat.mul_pos hm hn).ne').mpr hlarge
    omega
  · have hme : ¬2 ^ 52 ≤ m := fun h ↦ hlarge (h.trans (Nat.le_mul_of_pos_right m hn))
    have hnd : ¬2 ^ 52 ≤ n := fun h ↦ hlarge (h.trans (Nat.le_mul_of_pos_left n hm))
    have he : e = -1074 := by
      by_contra hne
      exact hme (henormal (by omega))
    have hd : d = -1074 := by
      by_contra hne
      exact hnd (hdnormal (by omega))
    omega

/-! ## Rounded quotients -/

theorem represents_fraction (m : ℕ) (hn : 0 < n) :
    Represents (.ofMantissaAndAccuracy (m / n) (UnpackedFloat.accuracyOfFraction (m % n) n))
      ((m : ℚ) / n) := by
  have hpos : (0 : ℚ) < n := by exact_mod_cast hn
  have hlt : ((m % n : ℕ) : ℚ) / n < 1 := by
    rw [div_lt_one hpos]
    exact_mod_cast Nat.mod_lt m hn
  have hsplit : (m : ℚ) / n = (m / n : ℕ) + ((m % n : ℕ) : ℚ) / n := by
    rw [div_eq_iff hpos.ne', add_mul, div_mul_cancel₀ _ hpos.ne']
    exact_mod_cast (Nat.div_add_mod' m n).symm
  rw [hsplit, UnpackedFloat.accuracyOfFraction]
  split
  next hzero =>
    rw [hzero, Nat.cast_zero, zero_div, add_zero]
    exact .of_exact _
  next hne =>
    have hrest : (0 : ℚ) < ((m % n : ℕ) : ℚ) / n :=
      div_pos (by exact_mod_cast Nat.pos_of_ne_zero hne) hpos
    rcases Nat.lt_trichotomy (2 * (m % n)) n with h | h | h
    · have hhalf : ((m % n : ℕ) : ℚ) / n < 1 / 2 := by
        rw [div_lt_div_iff₀ hpos (by norm_num)]
        exact_mod_cast (by omega : m % n * 2 < 1 * n)
      rw [Nat.compare_eq_lt.mpr h]
      exact ⟨_, hrest.le, hhalf, iff_of_false Bool.noConfusion hrest.ne',
        by simp [ExtendedMantissa.ofMantissaAndAccuracy]⟩
    · have hhalf : ((m % n : ℕ) : ℚ) / n = 1 / 2 := by
        rw [div_eq_div_iff hpos.ne' (by norm_num)]
        exact_mod_cast (by omega : m % n * 2 = 1 * n)
      rw [Nat.compare_eq_eq.mpr h, hhalf]
      exact ⟨0, le_rfl, by norm_num, iff_of_true rfl rfl,
        by simp [ExtendedMantissa.ofMantissaAndAccuracy]⟩
    · have hhalf : 1 / 2 < ((m % n : ℕ) : ℚ) / n := by
        rw [div_lt_div_iff₀ (by norm_num) hpos]
        exact_mod_cast (by omega : 1 * n < m % n * 2)
      rw [Nat.compare_eq_gt.mpr h]
      refine ⟨((m % n : ℕ) : ℚ) / n - 1 / 2, by linarith, by linarith,
        iff_of_false Bool.noConfusion (by linarith), ?_⟩
      simp [ExtendedMantissa.ofMantissaAndAccuracy]

private theorem exists_roundsTo_div (hu : Fits (.finite s m e hm)) (hv : Fits (.finite t n d hn)) :
    ∃ k, RoundsTo (((m * 2 ^ (e + 1074).toNat : ℕ) : ℚ) * 2 ^ 1074
        / (n * 2 ^ (d + 1074).toNat : ℕ)) k ∧
      rank (encoded (UnpackedFloat.div .binary64 (.finite s m e hm) (.finite t n d hn)))
        = (s / t).apply k := by
  obtain ⟨helower, -, hebits, -⟩ := hu
  obtain ⟨hdlower, -, -, -⟩ := hv
  obtain ⟨r, hr⟩ : ∃ r, r = min (e - d) (max (m.log2 + 1 + e - (n.log2 + 1 + d) - 53) (-1074)) :=
    ⟨_, rfl⟩
  obtain ⟨k, hk⟩ : ∃ k : ℕ, e - d = r + k := ⟨(e - d - r).toNat, by omega⟩
  have hdiv : UnpackedFloat.div .binary64 (.finite s m e hm) (.finite t n d hn)
      = UnpackedFloat.roundWithAccuracy .binary64 (s / t) ((m <<< k) / n) r
          (UnpackedFloat.accuracyOfFraction ((m <<< k) % n) n) := by
    have hexponent : min (e - d) (Format.binary64.targetExponent
        (totalExponent m e - totalExponent n d)) = r := hr.symm
    have hshift : (e - d - r).toNat = k := by omega
    rw [UnpackedFloat.div, UnpackedFloat.divCore]
    simp only [hexponent, hshift]
  have hvalue : (((m * 2 ^ (e + 1074).toNat : ℕ) : ℚ) * 2 ^ 1074 / (n * 2 ^ (d + 1074).toNat : ℕ))
      / 2 ^ (r + 1074) = ((m <<< k : ℕ) : ℚ) / n := by
    have hn' : (n : ℚ) ≠ 0 := by exact_mod_cast hn.ne'
    have hpowers : (2 : ℚ) ^ (e + 1074) * 2 ^ (1074 : ℤ)
        = 2 ^ (k : ℤ) * (2 ^ (d + 1074) * 2 ^ (r + 1074)) := by
      rw [← zpow_add₀ (by norm_num), ← zpow_add₀ (by norm_num), ← zpow_add₀ (by norm_num)]
      congr 1
      omega
    rw [div_div, div_eq_div_iff (mul_pos (by positivity) (two_zpow_pos _)).ne' hn',
      Nat.shiftLeft_eq]
    push_cast
    rw [← zpow_natCast, ← zpow_natCast, ← zpow_natCast, ← zpow_natCast,
      Int.toNat_of_nonneg (by omega), Int.toNat_of_nonneg (by omega)]
    linear_combination (m * n : ℚ) * hpowers
  rw [hdiv]
  refine exists_roundsTo ?_ (hvalue ▸ represents_fraction _ hn)
  by_cases hlower : r ≤ -1074
  · exact hlower.trans (le_max_right _ _)
  · have hquotient : 2 ^ 52 ≤ (m <<< k) / n := by
      rw [Nat.le_div_iff_mul_le hn, Nat.shiftLeft_eq]
      calc 2 ^ 52 * n ≤ 2 ^ 52 * 2 ^ (n.log2 + 1) := Nat.mul_le_mul_left _ Nat.lt_log2_self.le
        _ = 2 ^ (n.log2 + 53) := by rw [← pow_add]; congr 1; omega
        _ ≤ 2 ^ (m.log2 + k) := Nat.pow_le_pow_right (by decide) (by omega)
        _ = 2 ^ m.log2 * 2 ^ k := pow_add _ _ _
        _ ≤ m * 2 ^ k := Nat.mul_le_mul_right _ (Nat.log2_self_le hm.ne')
    have hlog : 52 ≤ ((m <<< k) / n).log2 := (Nat.le_log2 (by omega)).mpr hquotient
    omega

/-! ## Results with signs -/

variable {a b c : Float}

theorem finite_cases (h : IsFinite a) :
    (∃ s, unpacked a = .zero s) ∨ ∃ s m e hm, unpacked a = .finite s m e hm := by
  rw [isFinite_iff] at h
  match hu : unpacked a with
  | .notANumber | .infinity _ =>
    rw [hu] at h
    cases h
  | .zero s => exact .inl ⟨s, rfl⟩
  | .finite s m e hm => exact .inr ⟨s, m, e, hm, rfl⟩

theorem SignedValueRoundsTo.of_eq_zero {x : ℚ} (hx : x = 0) (s : Sign) :
    SignedValueRoundsTo x (rank (encoded (.zero s))) := by
  have hfits : Fits (.zero s) := trivial
  rw [hx, encoded_of_fits hfits]
  exact .inl ⟨le_rfl, roundsTo_zero⟩

@[simp] theorem sign_div (s t : Sign) : s / t = s * t := by
  cases s <;> cases t <;> rfl

/-- **A product is rounded.** -/
theorem signedValueRoundsTo_mul (ha : IsFinite a) (hb : IsFinite b) :
    SignedValueRoundsTo ((units (unpacked a) : ℚ) * units (unpacked b) / 2 ^ 1074)
      (rank (unpacked (a * b))) := by
  have hmul : unpacked (a * b) = encoded (UnpackedFloat.mul .binary64 (unpacked a) (unpacked b)) :=
    rfl
  have hfu := fits_unpacked a
  have hfv := fits_unpacked b
  rw [hmul]
  rcases finite_cases ha with ⟨s, hu⟩ | ⟨s, m, e, hm, hu⟩ <;>
    rcases finite_cases hb with ⟨t, hv⟩ | ⟨t, n, d, hn, hv⟩ <;> rw [hu, hv]
  · exact .of_eq_zero (by simp) _
  · exact .of_eq_zero (by simp) _
  · exact .of_eq_zero (by simp) _
  · rw [hu] at hfu
    rw [hv] at hfv
    obtain ⟨k, hk, hrank⟩ := exists_roundsTo_mul hfu hfv
    have hvalue : SignedValueRoundsTo _ k := .inl ⟨by positivity, hk⟩
    rw [hrank]
    cases s <;> cases t
    · simpa [units, Sign.apply] using hvalue
    · simpa [units, Sign.apply, neg_div] using hvalue.neg
    · simpa [units, Sign.apply, neg_div] using hvalue.neg
    · simpa [units, Sign.apply] using hvalue

/-- **A quotient is rounded**, unless the divisor is zero. -/
theorem signedValueRoundsTo_div (ha : IsFinite a) (hb : IsFinite b)
    (hzero : units (unpacked b) ≠ 0) :
    SignedValueRoundsTo ((units (unpacked a) : ℚ) * 2 ^ 1074 / units (unpacked b))
      (rank (unpacked (a / b))) := by
  have hdiv : unpacked (a / b) = encoded (UnpackedFloat.div .binary64 (unpacked a) (unpacked b)) :=
    rfl
  have hfu := fits_unpacked a
  have hfv := fits_unpacked b
  rw [hdiv]
  rcases finite_cases hb with ⟨t, hv⟩ | ⟨t, n, d, hn, hv⟩
  · exact absurd (by rw [hv, units_zero]) hzero
  rcases finite_cases ha with ⟨s, hu⟩ | ⟨s, m, e, hm, hu⟩ <;> rw [hu, hv]
  · exact .of_eq_zero (by simp) _
  · rw [hu] at hfu
    rw [hv] at hfv
    obtain ⟨k, hk, hrank⟩ := exists_roundsTo_div hfu hfv
    have hvalue : SignedValueRoundsTo _ k := .inl ⟨by positivity, hk⟩
    rw [hrank, sign_div]
    cases s <;> cases t
    · simpa [units, Sign.apply] using hvalue
    · simpa [units, Sign.apply, neg_div, div_neg] using hvalue.neg
    · simpa [units, Sign.apply, neg_div, div_neg] using hvalue.neg
    · simpa [units, Sign.apply] using hvalue

/-! ## The order of finite numbers -/

/-- Finite numbers are ordered as their exact values. -/
theorem le_iff_units_le (ha : IsFinite a) (hb : IsFinite b) :
    a ≤ b ↔ units (unpacked a) ≤ units (unpacked b) := by
  rw [isFinite_iff] at ha hb
  constructor
  · intro h
    exact units_le_of_rank_le ha hb (fits_unpacked a) (fits_unpacked b) (le_iff.mp h).2
  · intro h
    refine le_iff.mpr ⟨⟨ne_notANumber_of_isFinite ha, ne_notANumber_of_isFinite hb⟩, ?_⟩
    exact (signedRoundsTo_units ha (fits_unpacked a)).le
      (signedRoundsTo_units hb (fits_unpacked b)) h

theorem rank_nonneg (h : 0 ≤ a) : 0 ≤ rank (unpacked a) := (le_iff.mp h).2

theorem isFinite_zero : IsFinite (0 : Float) := isFinite_iff.mpr rfl

@[simp] theorem units_one : units (unpacked 1) = 2 ^ 1074 := by decide +kernel

theorem isFinite_one : IsFinite (1 : Float) := by decide +kernel

theorem units_nonneg (h : 0 ≤ a) (ha : IsFinite a) : 0 ≤ units (unpacked a) :=
  (le_iff_units_le isFinite_zero ha).mp h

theorem units_pos (h : 0 < a) (ha : IsFinite a) : 0 < units (unpacked a) := by
  by_contra hle
  exact (lt_iff_le_not_le.mp h).2 ((le_iff_units_le ha isFinite_zero).mpr (Int.not_lt.mp hle))

theorem roundsTo_mul (ha : 0 ≤ a) (hb : 0 ≤ b) (hfa : IsFinite a) (hfb : IsFinite b) :
    RoundsTo ((units (unpacked a) : ℚ) * units (unpacked b) / 2 ^ 1074)
      (rank (unpacked (a * b))) := by
  have ha' : (0 : ℚ) ≤ units (unpacked a) := by exact_mod_cast units_nonneg ha hfa
  have hb' : (0 : ℚ) ≤ units (unpacked b) := by exact_mod_cast units_nonneg hb hfb
  exact (signedValueRoundsTo_mul hfa hfb).roundsTo (by positivity)

theorem roundsTo_div (ha : 0 ≤ a) (hb : 0 < b) (hfa : IsFinite a) (hfb : IsFinite b) :
    RoundsTo ((units (unpacked a) : ℚ) * 2 ^ 1074 / units (unpacked b))
      (rank (unpacked (a / b))) := by
  have ha' : (0 : ℚ) ≤ units (unpacked a) := by exact_mod_cast units_nonneg ha hfa
  have hb' : (0 : ℚ) < units (unpacked b) := by exact_mod_cast units_pos hb hfb
  exact (signedValueRoundsTo_div hfa hfb (units_pos hb hfb).ne').roundsTo (by positivity)

theorem roundsTo_units (ha : 0 ≤ a) (hfa : IsFinite a) :
    RoundsTo (units (unpacked a)) (rank (unpacked a)) := by
  rcases signedRoundsTo_units (isFinite_iff.mp hfa) (fits_unpacked a) with ⟨-, h⟩ | ⟨hnonpos, h⟩
  · exact h
  · have hzero : units (unpacked a) = 0 := le_antisymm hnonpos (units_nonneg ha hfa)
    have hrank : rank (unpacked a) = 0 := by
      have hnonneg := h.nonneg
      have hnonneg' := rank_nonneg ha
      omega
    simpa [hzero, hrank] using h

/-- What is rounded from an exact value is not negative. -/
theorem nonneg_of_roundsTo {x : ℚ} (hnumber : ¬IsNaN a) (h : RoundsTo x (rank (unpacked a))) :
    0 ≤ a :=
  le_iff.mpr ⟨⟨nofun, mt isNaN_iff.mpr hnumber⟩, h.nonneg⟩

theorem le_of_roundsTo {x y : ℚ} (ha : ¬IsNaN a) (hb : ¬IsNaN b)
    (hx : RoundsTo x (rank (unpacked a))) (hy : RoundsTo y (rank (unpacked b))) (hxy : x ≤ y) :
    a ≤ b :=
  le_iff.mpr ⟨⟨mt isNaN_iff.mpr ha, mt isNaN_iff.mpr hb⟩, hx.le hy hxy⟩

/-! ## The order of products and quotients -/

/-- **Products of magnitudes are ordered**, also those that are too large for a number. -/
theorem mul_le_mul_of_nonneg (ha : 0 ≤ a) (hab : a ≤ b) (hc : 0 ≤ c) (hfb : IsFinite b)
    (hfc : IsFinite c) : 0 ≤ a * c ∧ a * c ≤ b * c := by
  have hfa : IsFinite a := isFinite_of_le_of_le ha hab isFinite_zero hfb
  have hnumber := not_isNaN_mul hfa hfc
  have hnumber' := not_isNaN_mul hfb hfc
  have hleft := roundsTo_mul ha hc hfa hfc
  have hright := roundsTo_mul (le_trans ha hab) hc hfb hfc
  have hunits : (units (unpacked a) : ℚ) ≤ units (unpacked b) := by
    exact_mod_cast (le_iff_units_le hfa hfb).mp hab
  have hnonneg : (0 : ℚ) ≤ units (unpacked c) := by exact_mod_cast units_nonneg hc hfc
  refine ⟨nonneg_of_roundsTo hnumber hleft, le_of_roundsTo hnumber hnumber' hleft hright ?_⟩
  exact div_le_div_of_nonneg_right (mul_le_mul_of_nonneg_right hunits hnonneg) (by positivity)

theorem Unpacked.div_ne_notANumber {spec : Format} {v : UnpackedFloat} (hv : v ≠ .notANumber)
    (hzero : ∀ t, v ≠ .zero t) {u : UnpackedFloat} (hu : u.isFinite = true) :
    UnpackedFloat.div spec u v ≠ .notANumber := by
  match u, v, hu with
  | _, .notANumber, _ => exact absurd rfl hv
  | _, .zero t, _ => exact absurd rfl (hzero t)
  | .zero _, .infinity _, _ | .zero _, .finite _ _ _ _, _ | .finite _ _ _ _, .infinity _, _ =>
    exact UnpackedFloat.noConfusion
  | .finite _ _ _ _, .finite _ _ _ _, _ => exact roundWithAccuracy_ne_notANumber _ _ _ _ _

theorem not_isNaN_div_of_ne (ha : IsFinite a) (hb : ¬IsNaN b) (hzero : rank (unpacked b) ≠ 0) :
    ¬IsNaN (a / b) := by
  rw [isFinite_iff] at ha
  rw [isNaN_iff] at hb ⊢
  refine unpack_pack_ne_notANumber (Unpacked.div_ne_notANumber hb (fun t ht ↦ hzero ?_) ha)
  rw [show unpacked b = _ from ht, rank]

theorem not_isNaN_div (ha : IsFinite a) (hb : 0 < b) : ¬IsNaN (a / b) := by
  obtain ⟨hnumber, hpos⟩ := pos_iff.mp hb
  exact not_isNaN_div_of_ne ha (mt isNaN_iff.mp hnumber) hpos.ne'

/-- **A quotient by one or more** is no greater than the number that is divided, and not
negative. -/
theorem div_le_of_one_le (ha : 0 ≤ a) (hb : 1 ≤ b) (hfa : IsFinite a) (hfb : IsFinite b) :
    0 ≤ a / b ∧ a / b ≤ a := by
  have hpos : 0 < b := Scalar.lt_of_lt_of_le (by decide +kernel) hb
  have hnumber := not_isNaN_div hfa hpos
  have hround := roundsTo_div ha hpos hfa hfb
  have hunits : (2 : ℚ) ^ 1074 ≤ units (unpacked b) := by
    have hle := (le_iff_units_le isFinite_one hfb).mp hb
    rw [units_one, ← Int.cast_le (R := ℚ), Int.cast_pow, Int.cast_ofNat] at hle
    exact hle
  have hnonneg : (0 : ℚ) ≤ units (unpacked a) := by exact_mod_cast units_nonneg ha hfa
  have hquotient : (units (unpacked a) : ℚ) * 2 ^ 1074 / units (unpacked b)
      ≤ units (unpacked a) := by
    rw [div_le_iff₀ ((pow_pos two_pos 1074).trans_le hunits)]
    exact mul_le_mul_of_nonneg_left hunits hnonneg
  exact ⟨nonneg_of_roundsTo hnumber hround, le_of_roundsTo hnumber
    (Scalar.Lawful.not_isNaN_of_isFinite hfa) hround (roundsTo_units ha hfa) hquotient⟩

end ImplicitPlot.Binary64
