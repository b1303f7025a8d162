import ImplicitPlot.Proofs.Scalar.Laws
import ImplicitPlot.Proofs.Scalar.Rank
import ImplicitPlot.Scalar.Binary64

/-!
# Laws of binary64 numbers

Laws that hold of all numbers, the infinities and what is not a number among them. They are read
off the definition of the operations on signs, mantissas and exponents, and the order is that of the
ranks.
-/

namespace ImplicitPlot.Binary64

open Float.Model

namespace Unpacked

/-- Two numbers with signs have one sum: the signs decide about infinities and zeros, and the
mantissas are aligned to the lesser exponent of the two. -/
theorem add_comm (spec : Format) (a b : UnpackedFloat) :
    UnpackedFloat.add spec a b = UnpackedFloat.add spec b a := by
  have hsign : ∀ s t : UnpackedFloat.Sign, ∀ x : UnpackedFloat.Sign → UnpackedFloat,
      ∀ y : UnpackedFloat, (if s == t then x s else y) = if t == s then x t else y := by
    intro s t x y
    cases s <;> cases t <;> rfl
  cases a with
  | notANumber => cases b <;> rfl
  | infinity s =>
    cases b with
    | infinity t => exact hsign s t .infinity .notANumber
    | _ => rfl
  | zero s =>
    cases b with
    | zero t => exact hsign s t .zero (.zero .positive)
    | _ => rfl
  | finite s m e hm =>
    cases b with
    | finite t n d hn =>
      simp only [UnpackedFloat.add]
      rw [Int.add_comm, Int.min_comm]
    | _ => rfl

theorem neg_neg (a : UnpackedFloat) : a.neg.neg = a := by
  have hsign : ∀ s : UnpackedFloat.Sign, - -s = s := by
    intro s
    cases s <;> rfl
  cases a with
  | notANumber => rfl
  | infinity | zero | finite => rw [UnpackedFloat.neg, UnpackedFloat.neg, hsign]

/-- Taking a number from itself leaves a zero, but there is no result for the infinities. -/
theorem sub_self (spec : Format) (a : UnpackedFloat) :
    UnpackedFloat.sub spec a a = if a.isFinite then .zero .positive else .notANumber := by
  cases a with
  | notANumber => rfl
  | infinity s => cases s <;> rfl
  | zero s => cases s <;> rfl
  | finite s m e hm =>
    simp only [UnpackedFloat.sub, Int.sub_self]
    rfl

end Unpacked

theorem add_comm (a b : Float) : a + b = b + a := by
  change Float.ofModel (.pack _) = Float.ofModel (.pack _)
  rw [Unpacked.add_comm]

/-! ## The order -/

/-- The decoded number. -/
def unpacked (a : Float) : UnpackedFloat := a.toModel.unpack

theorem unpacked_injective {a b : Float} (h : unpacked a = unpacked b) : a = b := by
  have hencoded (x : Float) : Float.ofModel (.pack (unpacked x)) = x := by
    rw [unpacked, pack_unpack]
  rw [← hencoded a, h, hencoded]

theorem fits_unpacked (a : Float) : Fits (unpacked a) := by
  obtain ⟨s, exponent, mantissa, h⟩ := exists_decode a.toModel
  rw [unpacked, h]
  exact fits_decode s exponent mantissa

@[simp] theorem unpacked_neg (a : Float) : unpacked (-a) = (unpacked a).neg := unpack_neg a.toModel

@[simp] theorem unpacked_abs (a : Float) : unpacked a.abs = (unpacked a).abs := unpack_abs a.toModel

theorem isNumber_neg {a : Float} : unpacked (-a) ≠ .notANumber ↔ unpacked a ≠ .notANumber := by
  rw [unpacked_neg]
  cases unpacked a with
  | notANumber => exact Iff.rfl
  | infinity | zero | finite => exact iff_of_true nofun nofun

theorem isNumber_abs {a : Float} : unpacked a.abs ≠ .notANumber ↔ unpacked a ≠ .notANumber := by
  rw [unpacked_abs]
  cases unpacked a with
  | notANumber => exact Iff.rfl
  | infinity | zero | finite => exact iff_of_true nofun nofun

theorem compare_notANumber {a b : UnpackedFloat} (h : ¬(a ≠ .notANumber ∧ b ≠ .notANumber)) :
    a.compare b = none := by
  cases a with
  | notANumber => rfl
  | infinity s | zero s | finite s =>
    cases b with
    | notANumber => cases s <;> rfl
    | infinity | zero | finite => exact absurd ⟨nofun, nofun⟩ h

theorem le_iff {a b : Float} : a ≤ b ↔ (unpacked a ≠ .notANumber ∧ unpacked b ≠ .notANumber) ∧
    rank (unpacked a) ≤ rank (unpacked b) := by
  have hle : a ≤ b ↔ ((unpacked a).compare (unpacked b)).any (·.isLE) = true := decide_eq_true_iff
  rw [hle]
  by_cases h : unpacked a ≠ .notANumber ∧ unpacked b ≠ .notANumber
  · rw [compare_eq (fits_unpacked a) (fits_unpacked b) h.1 h.2]
    exact Int.isLE_compare.trans (and_iff_right h).symm
  · rw [compare_notANumber h]
    exact iff_of_false nofun fun hle ↦ h hle.1

theorem lt_iff {a b : Float} : a < b ↔ (unpacked a ≠ .notANumber ∧ unpacked b ≠ .notANumber) ∧
    rank (unpacked a) < rank (unpacked b) := by
  have hlt : a < b ↔ ((unpacked a).compare (unpacked b) == some .lt) = true := decide_eq_true_iff
  rw [hlt, beq_iff_eq]
  by_cases h : unpacked a ≠ .notANumber ∧ unpacked b ≠ .notANumber
  · rw [compare_eq (fits_unpacked a) (fits_unpacked b) h.1 h.2, Option.some.injEq]
    exact Int.compare_eq_lt.trans (and_iff_right h).symm
  · rw [compare_notANumber h]
    exact iff_of_false nofun fun hlt ↦ h hlt.1

theorem neg_neg (a : Float) : - -a = a := by
  change Float.ofModel (.pack (unpacked (-a)).neg) = a
  rw [unpacked_neg, Unpacked.neg_neg, unpacked, pack_unpack]

@[simp] theorem unpacked_zero : unpacked 0 = .zero .positive := rfl

theorem le_self_iff {a : Float} : a ≤ a ↔ unpacked a ≠ .notANumber :=
  ⟨fun h ↦ (le_iff.mp h).1.1, fun h ↦ le_iff.mpr ⟨⟨h, h⟩, Int.le_refl _⟩⟩

theorem le_trans {a b c : Float} (hab : a ≤ b) (hbc : b ≤ c) : a ≤ c := by
  obtain ⟨⟨ha, -⟩, hrank⟩ := le_iff.mp hab
  obtain ⟨⟨-, hc⟩, hrank'⟩ := le_iff.mp hbc
  exact le_iff.mpr ⟨⟨ha, hc⟩, Int.le_trans hrank hrank'⟩

theorem lt_iff_le_not_le {a b : Float} : a < b ↔ a ≤ b ∧ ¬b ≤ a := by
  rw [lt_iff]
  constructor
  · rintro ⟨hnumbers, hrank⟩
    refine ⟨le_iff.mpr ⟨hnumbers, Int.le_of_lt hrank⟩, fun hba ↦ ?_⟩
    exact Int.not_le.mpr hrank (le_iff.mp hba).2
  · rintro ⟨hab, hba⟩
    obtain ⟨hnumbers, -⟩ := le_iff.mp hab
    exact ⟨hnumbers, Int.not_le.mp fun hrank ↦ hba (le_iff.mpr ⟨hnumbers.symm, hrank⟩)⟩

theorem le_total {a b : Float} (ha : a ≤ a) (hb : b ≤ b) : a ≤ b ∨ b ≤ a := by
  have ha' := le_self_iff.mp ha
  have hb' := le_self_iff.mp hb
  rcases Int.le_total (rank (unpacked a)) (rank (unpacked b)) with h | h
  · exact .inl (le_iff.mpr ⟨⟨ha', hb'⟩, h⟩)
  · exact .inr (le_iff.mpr ⟨⟨hb', ha'⟩, h⟩)

/-! ## Signs -/

theorem neg_le_neg {a b : Float} (h : a ≤ b) : -b ≤ -a := by
  obtain ⟨⟨ha, hb⟩, hrank⟩ := le_iff.mp h
  refine le_iff.mpr ⟨⟨isNumber_neg.mpr hb, isNumber_neg.mpr ha⟩, ?_⟩
  rw [unpacked_neg, unpacked_neg, rank_neg, rank_neg]
  exact Int.neg_le_neg hrank

theorem neg_zero : (-0 : Float) ≤ 0 ∧ (0 : Float) ≤ -0 := by
  decide +kernel

theorem pos_iff {a : Float} : 0 < a ↔ unpacked a ≠ .notANumber ∧ 0 < rank (unpacked a) := by
  rw [lt_iff, unpacked_zero]
  exact and_congr_left fun _ ↦ and_iff_right nofun

theorem neg_iff {a : Float} : a < 0 ↔ unpacked a ≠ .notANumber ∧ rank (unpacked a) < 0 := by
  rw [lt_iff, unpacked_zero]
  exact and_congr_left fun _ ↦ and_iff_left nofun

@[simp] theorem neg_pos_iff {a : Float} : 0 < -a ↔ a < 0 := by
  rw [pos_iff, neg_iff, isNumber_neg, unpacked_neg, rank_neg, Int.neg_pos]

@[simp] theorem neg_neg_iff {a : Float} : -a < 0 ↔ 0 < a := by
  rw [← neg_pos_iff, neg_neg]

/-- The magnitude of a number that has no sign is the number itself. -/
theorem abs_of_nonneg {a : Float} (h : 0 ≤ a) : a.abs ≤ a ∧ a ≤ a.abs := by
  obtain ⟨⟨-, ha⟩, hrank⟩ := le_iff.mp h
  have heq : rank (unpacked a.abs) = rank (unpacked a) := by
    rw [unpacked_abs, rank_abs (fits_unpacked a)]
    exact Int.natAbs_of_nonneg hrank
  have habs := isNumber_abs.mpr ha
  exact ⟨le_iff.mpr ⟨⟨habs, ha⟩, Int.le_of_eq heq⟩, le_iff.mpr ⟨⟨ha, habs⟩, Int.le_of_eq heq.symm⟩⟩

theorem abs_neg (a : Float) : (-a).abs = a.abs := by
  change Float.ofModel (.pack (unpacked (-a)).abs) = .ofModel (.pack (unpacked a).abs)
  rw [unpacked_neg]
  cases unpacked a with
  | notANumber | infinity | zero | finite => rfl

/-- Rounding keeps the sign. -/
theorem round_neg (a : Float) : round (-a) = -round a := by
  rw [round, round]
  simp only [neg_pos_iff, neg_neg_iff, neg_neg]
  by_cases hpos : 0 < a
  · have hneg : ¬a < 0 := by
      intro hneg
      exact Int.lt_asymm (pos_iff.mp hpos).2 (neg_iff.mp hneg).2
    rw [if_pos hpos, if_neg hneg, if_pos hpos]
  · rw [if_neg hpos, if_neg hpos]
    by_cases hneg : a < 0
    · rw [if_pos hneg, if_pos hneg, neg_neg]
    · rw [if_neg hneg, if_neg hneg]

/-! ## Finite numbers -/

theorem sub_self_eq (a : Float) :
    a - a = .ofModel (.pack (if (unpacked a).isFinite then .zero .positive else .notANumber)) := by
  change Float.ofModel (.pack (UnpackedFloat.sub _ (unpacked a) (unpacked a))) = _
  rw [Unpacked.sub_self]

theorem sub_self_le_iff {a : Float} : a - a ≤ a - a ↔ (unpacked a).isFinite = true := by
  rw [le_self_iff, sub_self_eq]
  by_cases h : (unpacked a).isFinite = true
  · rw [if_pos h]
    exact iff_of_true nofun h
  · rw [if_neg h]
    exact iff_of_false (fun hne ↦ hne rfl) h

theorem isNaN_iff {a : Float} : Scalar.IsNaN a ↔ unpacked a = .notANumber :=
  (not_congr le_self_iff).trans not_not

theorem isFinite_iff {a : Float} : Scalar.IsFinite a ↔ (unpacked a).isFinite = true :=
  not_not.trans sub_self_le_iff

theorem isFinite_neg {a : Float} (h : (unpacked a).isFinite = true) :
    (unpacked (-a)).isFinite = true := by
  rw [unpacked_neg]
  cases ha : unpacked a with
  | zero | finite => rfl
  | notANumber | infinity =>
    rw [ha] at h
    cases h

/-- **Binary64 numbers are lawful**, whatever their power is. -/
theorem lawful (pow : Float → Float → Float) : @Scalar.Lawful Float (arithmetic pow) :=
  letI := arithmetic pow
  { le_trans := le_trans
    lt_iff := lt_iff_le_not_le
    not_isNaN_of_le := by
      intro a b h
      obtain ⟨⟨ha, hb⟩, -⟩ := le_iff.mp h
      exact ⟨not_not_intro (le_self_iff.mpr ha), not_not_intro (le_self_iff.mpr hb)⟩
    le_total := fun ha hb ↦ le_total (not_not.mp ha) (not_not.mp hb)
    neg_le_neg := neg_le_neg
    neg_neg := neg_neg
    neg_zero := neg_zero
    abs_of_nonneg := abs_of_nonneg
    abs_of_nonpos := by
      intro a h
      have habs := abs_of_nonneg (le_trans neg_zero.2 (neg_le_neg h))
      rwa [abs_neg] at habs
    not_isNaN_of_isFinite := by
      intro a h
      have hfin := sub_self_le_iff.mp (not_not.mp h)
      refine not_not_intro (le_self_iff.mpr fun hu ↦ ?_)
      rw [hu] at hfin
      cases hfin
    isFinite_neg := by
      intro a h
      have hfin := sub_self_le_iff.mp (not_not.mp h)
      exact not_not_intro (sub_self_le_iff.mpr (isFinite_neg hfin))
    sub_self := by
      intro a h
      have hfin := sub_self_le_iff.mp (not_not.mp h)
      change a - a ≤ 0 ∧ 0 ≤ a - a
      rw [sub_self_eq, if_pos hfin]
      decide +kernel
    isNaN_nan := by
      intro a _
      change ¬nan ≤ nan
      decide +kernel
    round_neg := round_neg
    zeroTolerance_pos := by
      change (0 : Float) < 1e-9
      decide +kernel }

instance : Scalar.Lawful Float := lawful Float.pow

end ImplicitPlot.Binary64
