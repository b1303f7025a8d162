import ImplicitPlot.Proofs.Scalar.Binary64
import ImplicitPlot.Proofs.Scalar.Rounding

/-!
# Sums of binary64 numbers

The sum of two finite numbers is their exact sum, rounded, so sums are ordered as their terms are.
Exact values are counted in units of the least positive number: every finite number is a whole
number of them, and so is every sum. Infinities need no rounding. A sum with one of them is that
infinity, or else not a number, and then it has no place in the order.
-/

namespace ImplicitPlot.Binary64

open Float.Model

open UnpackedFloat (Sign Accuracy ExtendedMantissa)

/-! ## Exact values -/

/-- The value of a finite number, in units of the least positive one. -/
def units : UnpackedFloat → ℤ
  | .finite s m e _ => s.apply ((m * 2 ^ (e + 1074).toNat : ℕ) : ℤ)
  | _ => 0

@[simp] theorem units_zero (s : Sign) : units (.zero s) = 0 := rfl

@[simp] theorem units_neg (u : UnpackedFloat) : units u.neg = -units u := by
  cases u with
  | notANumber | zero | infinity => rfl
  | finite s m e hm => cases s <;> simp [units, UnpackedFloat.neg, Sign.apply]

/-- An integer of either sign is rounded to the number of the given rank. -/
def SignedRoundsTo (z n : ℤ) : Prop :=
  0 ≤ z ∧ RoundsTo z n ∨ z ≤ 0 ∧ RoundsTo (-z) (-n)

theorem roundsTo_zero : RoundsTo 0 0 :=
  ⟨0, 0, by norm_num, fun h ↦ absurd h (by decide), by simpa using IsNearestEven.natCast 0, rfl⟩

theorem RoundsTo.eq_zero {n : ℤ} (h : RoundsTo 0 n) : n = 0 :=
  le_antisymm (h.le roundsTo_zero le_rfl) h.nonneg

/-- A value of either sign, a whole number of units or not, is rounded to the number of the given
rank. -/
def SignedValueRoundsTo (x : ℚ) (n : ℤ) : Prop :=
  0 ≤ x ∧ RoundsTo x n ∨ x ≤ 0 ∧ RoundsTo (-x) (-n)

theorem SignedValueRoundsTo.le {x y : ℚ} {n k : ℤ} (h : SignedValueRoundsTo x n)
    (h' : SignedValueRoundsTo y k) (hxy : x ≤ y) : n ≤ k := by
  rcases h with ⟨hx, h⟩ | ⟨hx, h⟩ <;> rcases h' with ⟨hy, h'⟩ | ⟨hy, h'⟩
  · exact h.le h' hxy
  · -- Both values are zero.
    have hle := h.le roundsTo_zero (by linarith)
    have hle' := h'.le roundsTo_zero (by linarith)
    have hnonneg := h.nonneg
    have hnonneg' := h'.nonneg
    omega
  · have hnonneg := h.nonneg
    have hnonneg' := h'.nonneg
    omega
  · have hle := h'.le h (by linarith)
    omega

theorem SignedValueRoundsTo.neg {x : ℚ} {n : ℤ} (h : SignedValueRoundsTo x n) :
    SignedValueRoundsTo (-x) (-n) := by
  rcases h with ⟨hx, h⟩ | ⟨hx, h⟩
  · exact .inr ⟨by linarith, by simpa using h⟩
  · exact .inl ⟨by linarith, h⟩

theorem SignedValueRoundsTo.roundsTo {x : ℚ} {n : ℤ} (h : SignedValueRoundsTo x n) (hx : 0 ≤ x) :
    RoundsTo x n := by
  rcases h with ⟨-, h⟩ | ⟨hnonpos, h⟩
  · exact h
  · obtain rfl : x = 0 := le_antisymm hnonpos hx
    have hzero := RoundsTo.eq_zero (by simpa using h)
    obtain rfl : n = 0 := by omega
    exact roundsTo_zero

theorem SignedRoundsTo.value {z n : ℤ} (h : SignedRoundsTo z n) : SignedValueRoundsTo z n := by
  rcases h with ⟨hz, h⟩ | ⟨hz, h⟩
  · exact .inl ⟨by exact_mod_cast hz, h⟩
  · exact .inr ⟨by exact_mod_cast hz, h⟩

theorem SignedRoundsTo.le {z z' n n' : ℤ} (h : SignedRoundsTo z n) (h' : SignedRoundsTo z' n')
    (hz : z ≤ z') : n ≤ n' :=
  h.value.le h'.value (by exact_mod_cast hz)

theorem SignedRoundsTo.neg {z n : ℤ} (h : SignedRoundsTo z n) : SignedRoundsTo (-z) (-n) := by
  rcases h with ⟨hz, h⟩ | ⟨hz, h⟩
  · exact .inr ⟨by omega, by simpa using h⟩
  · exact .inl ⟨by omega, by simpa using h⟩

/-- The sign of a value is that of its rank. -/
theorem SignedRoundsTo.apply {x : ℕ} {n : ℤ} (s : Sign) (h : RoundsTo x n) :
    SignedRoundsTo (s.apply x) (s.apply n) := by
  match s with
  | .positive => exact .inl ⟨Int.natCast_nonneg x, h⟩
  | .negative =>
    refine .inr ⟨Int.neg_nonpos_of_nonneg (Int.natCast_nonneg x), ?_⟩
    simpa [Sign.apply] using h

section Finite

variable {s : Sign} {m : ℕ} {e : ℤ} {hm : 0 < m} {u v : UnpackedFloat}

/-- A number is rounded to itself. -/
theorem signedRoundsTo_units (hfin : u.isFinite = true) (h : Fits u) :
    SignedRoundsTo (units u) (rank u) := by
  match u, h, hfin with
  | .zero s, _, _ => exact .inl ⟨le_rfl, by simpa [units, rank] using roundsTo_zero⟩
  | .finite s m e hm, ⟨hlower, hupper, hbits, hnormal⟩, _ =>
    refine .apply s ⟨(e + 1074).toNat, m, ?_, ?_, ?_, ?_⟩
    · rw [pow_add]
      push_cast
      exact mul_lt_mul_of_pos_right (by exact_mod_cast hbits) (by positivity)
    · intro hpos
      rw [pow_add]
      push_cast
      exact mul_le_mul_of_nonneg_right (by exact_mod_cast hnormal (by omega)) (by positivity)
    · have hcancel : (((m * 2 ^ (e + 1074).toNat : ℕ) : ℚ)) / 2 ^ (e + 1074).toNat = m := by
        push_cast
        exact mul_div_cancel_right₀ _ (by positivity)
      rw [hcancel]
      exact .natCast m
    · omega

theorem ne_notANumber_of_isFinite (h : u.isFinite = true) : u ≠ .notANumber := by
  rintro rfl
  cases h

theorem units_le_of_rank_le (hu : u.isFinite = true) (hv : v.isFinite = true) (hfu : Fits u)
    (hfv : Fits v) (h : rank u ≤ rank v) : units u ≤ units v := by
  by_contra hlt
  have hle := (signedRoundsTo_units hv hfv).le (signedRoundsTo_units hu hfu) (by omega)
  rcases eq_or_zero_of_rank_eq (ne_notANumber_of_isFinite hu) (ne_notANumber_of_isFinite hv) hfu hfv
    (le_antisymm h hle) with rfl | ⟨⟨s, rfl⟩, t, rfl⟩
  · exact hlt le_rfl
  · exact hlt le_rfl

/-! ## Rounded sums -/

private theorem log2_shiftLeft (hm : 0 < m) (k : ℕ) : (m <<< k).log2 = m.log2 + k := by
  rw [Nat.shiftLeft_eq, Nat.log2_eq_iff (by positivity)]
  have hlower := Nat.log2_self_le hm.ne'
  have hupper : m < 2 ^ (m.log2 + 1) := Nat.lt_log2_self
  constructor
  · rw [pow_add]
    exact Nat.mul_le_mul_right _ hlower
  · rw [add_right_comm, pow_add]
    exact Nat.mul_lt_mul_of_pos_right hupper (by positivity)

theorem signedRoundsTo_round (s : Sign) (hm : 0 < m) (he : -1074 ≤ e) :
    SignedRoundsTo (s.apply ((m * 2 ^ (e + 1074).toNat : ℕ) : ℤ))
      (rank (encoded (UnpackedFloat.round .binary64 s m e))) := by
  obtain ⟨k, hk⟩ : ∃ k, k = (e - Format.binary64.targetExponent (totalExponent m e)).toNat :=
    ⟨_, rfl⟩
  have hround : UnpackedFloat.round .binary64 s m e
      = UnpackedFloat.roundWithAccuracy .binary64 s (m <<< k) (e - k) .exact := by
    rw [hk]
    rfl
  have hlog := log2_shiftLeft hm k
  have hvalue : ((m * 2 ^ (e + 1074).toNat : ℕ) : ℚ) / 2 ^ (e - k + 1074) = (m <<< k : ℕ) := by
    rw [div_eq_iff (two_zpow_pos _).ne', Nat.shiftLeft_eq]
    push_cast
    rw [mul_assoc, ← zpow_natCast, ← zpow_natCast, ← zpow_add₀ (by norm_num)]
    congr 2
    omega
  have hexact : Represents (.ofMantissaAndAccuracy (m <<< k) .exact)
      (((m * 2 ^ (e + 1074).toNat : ℕ) : ℚ) / 2 ^ (e - k + 1074)) := by
    rw [hvalue]
    exact .of_exact _
  rw [targetExponent_eq] at hk
  obtain ⟨n, hn, hrank⟩ := exists_roundsTo (s := s) (by rw [hlog]; omega) hexact
  rw [hround, hrank]
  exact .apply s hn

theorem signedRoundsTo_normalize (z : ℤ) (he : -1074 ≤ e) :
    SignedRoundsTo (z * 2 ^ (e + 1074).toNat)
      (rank (encoded (UnpackedFloat.normalize .binary64 z e s))) := by
  rcases lt_trichotomy z 0 with hz | rfl | hz
  · obtain ⟨m, rfl⟩ : ∃ m : ℕ, z = -m := ⟨z.natAbs, by omega⟩
    have hnormalize : UnpackedFloat.normalize .binary64 (-m) e s
        = UnpackedFloat.round .binary64 .negative m e := by
      rw [UnpackedFloat.normalize, Int.compare_eq_lt.mpr hz]
      simp
    rw [hnormalize]
    simpa [Sign.apply] using signedRoundsTo_round .negative (show 0 < m by omega) he
  · have hnormalize : UnpackedFloat.normalize .binary64 0 e s = .zero s := rfl
    have hfits : Fits (.zero s) := trivial
    rw [hnormalize, encoded_of_fits hfits, rank, zero_mul]
    exact .inl ⟨le_rfl, roundsTo_zero⟩
  · obtain ⟨m, rfl⟩ : ∃ m : ℕ, z = m := ⟨z.natAbs, by omega⟩
    have hnormalize : UnpackedFloat.normalize .binary64 m e s
        = UnpackedFloat.round .binary64 .positive m e := by
      rw [UnpackedFloat.normalize, Int.compare_eq_gt.mpr hz]
      simp
    rw [hnormalize]
    simpa [Sign.apply] using signedRoundsTo_round .positive (show 0 < m by omega) he

theorem apply_shiftLeft_mul (s : Sign) {d : ℤ} (hd : -1074 ≤ d) (hde : d ≤ e) :
    s.apply ((m <<< (e - d).toNat : ℕ) : ℤ) * 2 ^ (d + 1074).toNat
      = s.apply ((m * 2 ^ (e + 1074).toNat : ℕ) : ℤ) := by
  have hvalue : (m <<< (e - d).toNat) * 2 ^ (d + 1074).toNat = m * 2 ^ (e + 1074).toNat := by
    rw [Nat.shiftLeft_eq, mul_assoc, ← pow_add]
    congr 2
    omega
  rw [← hvalue]
  cases s <;> simp [Sign.apply]

/-- **A sum is rounded.** -/
theorem signedRoundsTo_add (hu : u.isFinite = true) (hv : v.isFinite = true) (hfu : Fits u)
    (hfv : Fits v) :
    SignedRoundsTo (units u + units v) (rank (encoded (UnpackedFloat.add .binary64 u v))) := by
  match u, v, hu, hv, hfu, hfv with
  | .zero s, .zero t, _, _, _, _ =>
    have hzero : rank (encoded (UnpackedFloat.add .binary64 (.zero s) (.zero t))) = 0 := by
      cases s <;> cases t <;> rfl
    rw [hzero]
    exact .inl ⟨le_rfl, by simpa [units] using roundsTo_zero⟩
  | .zero s, .finite t n d hn, _, hv, _, hfv =>
    have hsum : UnpackedFloat.add .binary64 (.zero s) (.finite t n d hn) = .finite t n d hn := rfl
    have hzero : units (.zero s) = 0 := rfl
    rw [hsum, encoded_of_fits hfv, hzero, zero_add]
    exact signedRoundsTo_units hv hfv
  | .finite s m e hm, .zero t, hu, _, hfu, _ =>
    have hsum : UnpackedFloat.add .binary64 (.finite s m e hm) (.zero t) = .finite s m e hm := rfl
    have hzero : units (.zero t) = 0 := rfl
    rw [hsum, encoded_of_fits hfu, hzero, add_zero]
    exact signedRoundsTo_units hu hfu
  | .finite s m e hm, .finite t n d hn, _, _, hfu, hfv =>
    have hlower : -1074 ≤ min e d := le_min hfu.1 hfv.1
    have hsum : units (.finite s m e hm) + units (.finite t n d hn)
        = (s.apply ((m <<< (e - min e d).toNat : ℕ) : ℤ)
          + t.apply ((n <<< (d - min e d).toNat : ℕ) : ℤ)) * 2 ^ (min e d + 1074).toNat := by
      rw [add_mul, apply_shiftLeft_mul s hlower (min_le_left e d),
        apply_shiftLeft_mul t hlower (min_le_right e d)]
      rfl
    rw [hsum]
    exact signedRoundsTo_normalize _ hlower

end Finite

/-! ## Infinities and differences -/

theorem Unpacked.sub_eq_add_neg (spec : Format) (u v : UnpackedFloat) :
    UnpackedFloat.sub spec u v = UnpackedFloat.add spec u v.neg := by
  match u, v with
  | .notANumber, _ => rfl
  | .infinity s, .notANumber | .zero s, .notANumber | .finite s _ _ _, .notANumber => rfl
  | .infinity s, .infinity t | .infinity s, .zero t | .infinity s, .finite t _ _ _ => rfl
  | .zero s, .infinity t | .zero s, .zero t | .zero s, .finite t _ _ _ => rfl
  | .finite s _ _ _, .infinity t | .finite s _ _ _, .zero t => rfl
  | .finite s m e hm, .finite t n d hn =>
    have hneg : ∀ k : ℕ, (-t).apply k = -t.apply k := by
      intro k
      cases t <;> simp [Sign.apply]
    simp only [UnpackedFloat.sub, UnpackedFloat.neg, UnpackedFloat.add, hneg, Int.sub_eq_add_neg]

@[simp] theorem Unpacked.notANumber_add (spec : Format) (v : UnpackedFloat) :
    UnpackedFloat.add spec .notANumber v = .notANumber := by
  cases v with
  | notANumber | infinity | zero | finite => rfl

theorem unpacked_add (a b : Float) :
    unpacked (a + b) = encoded (UnpackedFloat.add .binary64 (unpacked a) (unpacked b)) := rfl

theorem sub_eq_add_neg (a b : Float) : a - b = a + -b := by
  change Float.ofModel (.pack (UnpackedFloat.sub _ (unpacked a) (unpacked b)))
    = .ofModel (.pack (UnpackedFloat.add _ (unpacked a) (unpacked (-b))))
  rw [Unpacked.sub_eq_add_neg, unpacked_neg]

theorem rank_bounds {u : UnpackedFloat} (h : Fits u) :
    -(2047 * 2 ^ 52) ≤ rank u ∧ rank u ≤ 2047 * 2 ^ 52 := by
  match u, h with
  | .notANumber, _ | .zero _, _ => simp [rank]
  | .infinity s, _ => cases s <;> simp [rank, Sign.apply]
  | .finite s m e hm, h =>
    have hrank := rank_finite h
    omega

theorem eq_infinity_of_rank_eq {u : UnpackedFloat} {s : Sign} (h : Fits u)
    (hrank : rank u = s.apply (2047 * 2 ^ 52)) : u = .infinity s := by
  match u, h with
  | .notANumber, _ | .zero _, _ =>
    rw [rank] at hrank
    cases s <;> exact absurd hrank (by decide)
  | .infinity t, _ =>
    cases s <;> cases t
    · rfl
    · exact absurd hrank (by decide)
    · exact absurd hrank (by decide)
    · rfl
  | .finite t m e hm, h =>
    have hfinite := rank_finite h
    cases s <;> simp only [Sign.apply] at hrank <;> omega

theorem isFinite_of_rank {u : UnpackedFloat} (hnumber : u ≠ .notANumber)
    (hlower : -(2047 * 2 ^ 52) < rank u) (hupper : rank u < 2047 * 2 ^ 52) :
    u.isFinite = true := by
  match u with
  | .notANumber => exact absurd rfl hnumber
  | .zero _ | .finite _ _ _ _ => rfl
  | .infinity .negative => exact absurd hlower (by decide)
  | .infinity .positive => exact absurd hupper (by decide)

theorem Unpacked.infinity_add {spec : Format} {s : Sign} {v : UnpackedFloat}
    (h : UnpackedFloat.add spec (.infinity s) v ≠ .notANumber) :
    UnpackedFloat.add spec (.infinity s) v = .infinity s := by
  match v, h with
  | .notANumber, h => exact absurd rfl h
  | .zero _, _ | .finite _ _ _ _, _ => rfl
  | .infinity t, h =>
    rw [UnpackedFloat.add] at h ⊢
    split at h
    next hsign => rw [if_pos hsign]
    next => exact absurd rfl h

theorem add_eq_of_infinity {a b : Float} {s : Sign} (ha : unpacked a = .infinity s)
    (h : unpacked (a + b) ≠ .notANumber) : unpacked (a + b) = .infinity s := by
  rw [unpacked_add, ha] at h ⊢
  have hinfinity : Fits (.infinity s) := trivial
  rw [Unpacked.infinity_add, encoded_of_fits hinfinity]
  intro hnan
  rw [hnan] at h
  exact h rfl

theorem rank_add_of_infinity {a b : Float} {s : Sign}
    (h : rank (unpacked a) = s.apply (2047 * 2 ^ 52) ∨ rank (unpacked b) = s.apply (2047 * 2 ^ 52))
    (hnumber : unpacked (a + b) ≠ .notANumber) :
    rank (unpacked (a + b)) = s.apply (2047 * 2 ^ 52) := by
  rcases h with h | h
  · rw [add_eq_of_infinity (eq_infinity_of_rank_eq (fits_unpacked a) h) hnumber, rank]
  · rw [add_comm] at hnumber ⊢
    rw [add_eq_of_infinity (eq_infinity_of_rank_eq (fits_unpacked b) h) hnumber, rank]

/-! ## The order of sums -/

/-- **Sums are ordered as their terms**, the infinities included. A sum with an infinity is one, and
finite terms are added exactly and rounded. -/
theorem add_le_add {a a' b b' : Float} (ha : a ≤ a') (hb : b ≤ b') (h : ¬Scalar.IsNaN (a + b))
    (h' : ¬Scalar.IsNaN (a' + b')) : a + b ≤ a' + b' := by
  obtain ⟨⟨hna, hna'⟩, harank⟩ := le_iff.mp ha
  obtain ⟨⟨hnb, hnb'⟩, hbrank⟩ := le_iff.mp hb
  rw [isNaN_iff] at h h'
  refine le_iff.mpr ⟨⟨h, h'⟩, ?_⟩
  by_cases hbottom : rank (unpacked a) = Sign.negative.apply (2047 * 2 ^ 52) ∨
      rank (unpacked b) = Sign.negative.apply (2047 * 2 ^ 52)
  · rw [rank_add_of_infinity hbottom h]
    exact (rank_bounds (fits_unpacked _)).1
  by_cases htop : rank (unpacked a') = Sign.positive.apply (2047 * 2 ^ 52) ∨
      rank (unpacked b') = Sign.positive.apply (2047 * 2 ^ 52)
  · rw [rank_add_of_infinity htop h']
    exact (rank_bounds (fits_unpacked _)).2
  · simp only [Sign.apply, not_or] at hbottom htop
    have hlower := (rank_bounds (fits_unpacked a)).1
    have hlower' := (rank_bounds (fits_unpacked b)).1
    have hupper := (rank_bounds (fits_unpacked a')).2
    have hupper' := (rank_bounds (fits_unpacked b')).2
    have hfa := isFinite_of_rank hna (by omega) (by omega)
    have hfb := isFinite_of_rank hnb (by omega) (by omega)
    have hfa' := isFinite_of_rank hna' (by omega) (by omega)
    have hfb' := isFinite_of_rank hnb' (by omega) (by omega)
    have hunits : units (unpacked a) + units (unpacked b)
        ≤ units (unpacked a') + units (unpacked b') :=
      Int.add_le_add (units_le_of_rank_le hfa hfa' (fits_unpacked a) (fits_unpacked a') harank)
        (units_le_of_rank_le hfb hfb' (fits_unpacked b) (fits_unpacked b') hbrank)
    exact (signedRoundsTo_add hfa hfb (fits_unpacked a) (fits_unpacked b)).le
      (signedRoundsTo_add hfa' hfb' (fits_unpacked a') (fits_unpacked b')) hunits

theorem sub_le_sub {a a' b b' : Float} (ha : a ≤ a') (hb : b' ≤ b) (h : ¬Scalar.IsNaN (a - b))
    (h' : ¬Scalar.IsNaN (a' - b')) : a - b ≤ a' - b' := by
  rw [sub_eq_add_neg] at h h' ⊢
  rw [sub_eq_add_neg]
  exact add_le_add ha (neg_le_neg hb) h h'

/-- A sum with what is not a number is not one. -/
theorem not_isNaN_of_add {a b : Float} (h : ¬Scalar.IsNaN (a + b)) :
    ¬Scalar.IsNaN a ∧ ¬Scalar.IsNaN b := by
  have hleft : ∀ {a b : Float}, unpacked a = .notANumber → unpacked (a + b) = .notANumber := by
    intro a b ha
    rw [unpacked_add, ha, Unpacked.notANumber_add]
    rfl
  rw [isNaN_iff] at h
  refine ⟨fun ha ↦ h (hleft (isNaN_iff.mp ha)), fun hb ↦ h ?_⟩
  rw [add_comm]
  exact hleft (isNaN_iff.mp hb)

/-- **Sums of binary64 numbers are ordered**, whatever the power is. -/
theorem orderedSums (pow : Float → Float → Float) : @Scalar.OrderedSums Float (arithmetic pow) :=
  letI := arithmetic pow
  { not_isNaN_of_add
    not_isNaN_of_sub := by
      intro a b h
      rw [sub_eq_add_neg] at h
      obtain ⟨ha, hb⟩ := not_isNaN_of_add h
      exact ⟨ha, fun hnan ↦ isNumber_neg.mp (mt isNaN_iff.mpr hb) (isNaN_iff.mp hnan)⟩
    add_le_add
    sub_le_sub }

end ImplicitPlot.Binary64

