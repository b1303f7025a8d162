import ImplicitPlot.Proofs.Plot.PixelEdges
import ImplicitPlot.Proofs.Scalar.RoundingError

/-!
# Errors of edges

An edge is computed from the corner of the region by four operations, each of which rounds: the
length of the range, its share for one pixel, a number of such shares, and the edge. This file
follows the errors of the first three, in units of the least positive number. All shares together
miss the length by three roundings at most, and by half a unit for each (`Divided.le_units_steps`).
The shares before the last one leave a distance that the roundings do not make up for, so that they
lead beyond the range by a unit for each at most (`Divided.units_steps_le_of_lt`).

The last operation needs no error: it keeps the order, so that an edge is beyond all numbers that
its exact value is beyond (`Divided.le_add_steps`, `Divided.sub_steps_le`).
-/

namespace ImplicitPlot

open Scalar (IsFinite IsNaN Lawful)

namespace Binary64

/-- A range that is divided among a number of columns or rows. -/
structure Divided (lower upper : Float) (n : ℕ) : Prop where
  lower_finite : IsFinite lower
  upper_finite : IsFinite upper
  length_finite : IsFinite (upper - lower)
  ordered : lower ≤ upper
  pos : 0 < n
  count_lt : n < 2 ^ 32

/-- The share of one column or row, as it is computed. -/
def share (lower upper : Float) (n : ℕ) : Float := (upper - lower) / .ofNat n

/-- The exact length of a range, in units of the least positive number. -/
def extent (lower upper : Float) : ℤ := units (unpacked upper) - units (unpacked lower)

/-- What the last edge may be short of the end of a range, in the same units: three roundings of the
length, and half a unit for each share. -/
def margin (lower upper : Float) (n : ℕ) : ℚ := 3 / 2 ^ 53 * extent lower upper + n / 2

/-- The ends and the length of a range are less than the greatest number by at least a part in
`2 ^ 50` of it. -/
structure Moderate (lower upper : Float) : Prop where
  lower_ge : -((1 - 1 / 2 ^ 50) * greatest) ≤ units (unpacked lower)
  upper_le : (units (unpacked upper) : ℚ) ≤ (1 - 1 / 2 ^ 50) * greatest
  extent_le : (extent lower upper : ℚ) ≤ (1 - 1 / 2 ^ 50) * greatest

theorem extent_cast (lower upper : Float) :
    (extent lower upper : ℚ) = units (unpacked upper) - units (unpacked lower) :=
  Int.cast_sub _ _

namespace Divided

variable {lower upper s : Float} {n i : ℕ}

theorem extent_nonneg (h : Divided lower upper n) : 0 ≤ extent lower upper :=
  Int.sub_nonneg_of_le ((le_iff_units_le h.lower_finite h.upper_finite).mp h.ordered)

theorem length_nonneg (h : Divided lower upper n) : 0 ≤ upper - lower :=
  sub_nonneg h.ordered h.lower_finite h.upper_finite

theorem isFinite_share (h : Divided lower upper n) :
    0 ≤ share lower upper n ∧ IsFinite (share lower upper n) :=
  div_count h.length_nonneg h.length_finite h.pos (h.count_lt.trans (by norm_num))

/-! ## The errors of a length, a share and of shares -/

theorem abs_length_sub_le (h : Divided lower upper n) :
    |(units (unpacked (upper - lower)) : ℚ) - extent lower upper|
      ≤ extent lower upper / 2 ^ 53 :=
  abs_units_sub_intCast_le h.length_finite
    ((signedRoundsTo_difference h.upper_finite h.lower_finite).roundsTo h.extent_nonneg)

theorem abs_share_sub_le (h : Divided lower upper n) :
    |(units (unpacked (share lower upper n)) : ℚ) - units (unpacked (upper - lower)) / n|
      ≤ units (unpacked (upper - lower)) / n / 2 ^ 53 + 1 / 2 := by
  have hcount : IsCount (.ofNat n) n := isCount_ofNat (h.count_lt.trans (by norm_num))
  have hpos : (0 : Float) < .ofNat n :=
    Scalar.lt_of_lt_of_le (by decide +kernel) ((IsCount.one.le_iff hcount).mpr h.pos)
  have hround := roundsTo_div h.length_nonneg hpos h.length_finite hcount.finite
  have hnonneg : (0 : ℚ) ≤ units (unpacked (upper - lower)) := by
    exact_mod_cast units_nonneg h.length_nonneg h.length_finite
  rw [hcount.units_eq, Int.cast_mul, Int.cast_natCast, Int.cast_pow, Int.cast_ofNat,
    mul_div_mul_right _ _ (pow_pos two_pos 1074).ne'] at hround
  exact abs_units_sub_le (by positivity) h.isFinite_share.2 hround

theorem roundsTo_steps (h : Divided lower upper n) (hi : i ≤ n) :
    RoundsTo ((i * units (unpacked (share lower upper n)) : ℤ) : ℚ)
      (rank (unpacked (.ofNat i * share lower upper n))) := by
  have hcount : IsCount (.ofNat i) i := isCount_ofNat (hi.trans_lt (h.count_lt.trans (by norm_num)))
  obtain ⟨hnonneg, hfinite⟩ := h.isFinite_share
  have hround := roundsTo_mul hcount.nonneg hnonneg hcount.finite hfinite
  rwa [hcount.units_eq, Int.cast_mul, Int.cast_pow, Int.cast_ofNat, mul_right_comm,
    mul_div_cancel_right₀ _ (pow_pos two_pos 1074).ne', ← Int.cast_mul] at hround

/-! ## All shares, and all but the last one -/

/-- Shares that make up no more than a fraction of the range are no longer than that fraction of the
length, up to a rounding and half a unit for each. -/
theorem steps_le_fraction (h : Divided lower upper n) (hi : i ≤ n) {q : ℚ} (hq : (i : ℚ) ≤ q * n) :
    (i * units (unpacked (share lower upper n)) : ℚ)
      ≤ q * (units (unpacked (upper - lower)) * (1 + 1 / 2 ^ 53)) + n / 2 := by
  have hn : (0 : ℚ) < n := by exact_mod_cast h.pos
  have hin : (i : ℚ) ≤ n := by exact_mod_cast hi
  have hlength : (0 : ℚ) ≤ units (unpacked (upper - lower)) := by
    exact_mod_cast units_nonneg h.length_nonneg h.length_finite
  have hshare := (abs_le.mp h.abs_share_sub_le).2
  generalize (units (unpacked (upper - lower)) : ℚ) = w at hlength hshare ⊢
  generalize (units (unpacked (share lower upper n)) : ℚ) = d at hshare ⊢
  calc (i * d : ℚ) ≤ i * (w * (1 + 1 / 2 ^ 53) / n + 1 / 2) := by
        refine mul_le_mul_of_nonneg_left ?_ (by positivity)
        calc d ≤ w / n + (w / n / 2 ^ 53 + 1 / 2) := by linarith
          _ = w * (1 + 1 / 2 ^ 53) / n + 1 / 2 := by ring
    _ = i * (w * (1 + 1 / 2 ^ 53) / n) + i / 2 := by ring
    _ ≤ q * n * (w * (1 + 1 / 2 ^ 53) / n) + n / 2 := by
        have hmul := mul_le_mul_of_nonneg_right hq
          (by positivity : 0 ≤ w * (1 + 1 / 2 ^ 53) / n)
        linarith
    _ = q * (w * (1 + 1 / 2 ^ 53)) + n / 2 := by
        rw [mul_assoc, mul_div_cancel₀ _ hn.ne']

private theorem le_all_steps (h : Divided lower upper n) :
    units (unpacked (upper - lower)) * (1 - 1 / 2 ^ 53) - n / 2
      ≤ (n * units (unpacked (share lower upper n)) : ℚ) := by
  have hn : (0 : ℚ) < n := by exact_mod_cast h.pos
  have hshare := (abs_le.mp h.abs_share_sub_le).1
  generalize (units (unpacked (upper - lower)) : ℚ) = w at hshare ⊢
  generalize (units (unpacked (share lower upper n)) : ℚ) = d at hshare ⊢
  calc w * (1 - 1 / 2 ^ 53) - n / 2 = n * (w / n - (w / n / 2 ^ 53 + 1 / 2)) := by
        field_simp
        ring
    _ ≤ n * d := mul_le_mul_of_nonneg_left (by linarith) hn.le

theorem not_isNaN_steps (h : Divided lower upper n) (hi : i ≤ n) :
    ¬IsNaN (.ofNat i * share lower upper n) :=
  not_isNaN_mul (isCount_ofNat (hi.trans_lt (h.count_lt.trans (by norm_num)))).finite
    h.isFinite_share.2

theorem steps_nonneg (h : Divided lower upper n) (hi : i ≤ n) :
    0 ≤ .ofNat i * share lower upper n :=
  nonneg_of_roundsTo (h.not_isNaN_steps hi) (h.roundsTo_steps hi)

/-- **All shares** miss the length by no more than three roundings and half a unit for each. -/
theorem le_units_steps (h : Divided lower upper n)
    (hfinite : IsFinite (.ofNat n * share lower upper n)) :
    (extent lower upper : ℚ) - margin lower upper n
      ≤ units (unpacked (.ofNat n * share lower upper n)) := by
  have hextent : (0 : ℚ) ≤ extent lower upper := by exact_mod_cast h.extent_nonneg
  have hn : (0 : ℚ) ≤ n := Nat.cast_nonneg n
  have hlength := (abs_le.mp h.abs_length_sub_le).1
  have hshares := h.le_all_steps
  have hsteps := (abs_le.mp (abs_units_sub_intCast_le hfinite (h.roundsTo_steps le_rfl))).1
  push_cast at hsteps
  rw [margin]
  linarith

private theorem le_fraction_of_lt (h : Divided lower upper n) (hi : i < n) :
    (i : ℚ) ≤ (1 - 1 / 2 ^ 32) * n := by
  have hsucc : (i : ℚ) + 1 ≤ n := by exact_mod_cast hi
  have hcount : (n : ℚ) ≤ 2 ^ 32 := by exact_mod_cast h.count_lt.le
  linarith

/-- **The shares before the last one** do not overflow, and do not lead beyond the range by more
than a unit for each. -/
theorem units_steps_le_of_lt (h : Divided lower upper n) (hi : i < n) :
    IsFinite (.ofNat i * share lower upper n) ∧
      (units (unpacked (.ofNat i * share lower upper n)) : ℚ) ≤ extent lower upper + n := by
  have hextent : (0 : ℚ) ≤ extent lower upper := by exact_mod_cast h.extent_nonneg
  have hn : (0 : ℚ) ≤ n := Nat.cast_nonneg n
  have hshares := h.steps_le_fraction hi.le (h.le_fraction_of_lt hi)
  have hfinite : IsFinite (.ofNat i * share lower upper n) := by
    refine isFinite_of_roundsTo (h.not_isNaN_steps hi.le) (h.roundsTo_steps hi.le) ?_
    have hlength := (abs_le.mp (abs_units_le h.length_finite)).2
    have hcount : (n : ℚ) ≤ 2 ^ 32 := by exact_mod_cast h.count_lt.le
    have hstep := le_greatestStep
    rw [greatest] at hlength
    rw [overflowBound_eq]
    push_cast
    linarith
  refine ⟨hfinite, ?_⟩
  have hlength := (abs_le.mp h.abs_length_sub_le).2
  have hsteps := (abs_le.mp (abs_units_sub_intCast_le hfinite (h.roundsTo_steps hi.le))).2
  push_cast at hsteps
  linarith

/-! ## Edges -/

/-- **The last edge going up** reaches all numbers of the range that are not within the margin. -/
theorem le_add_steps (h : Divided lower upper n) (hs : IsFinite s)
    (hle : (units (unpacked s) : ℚ) + margin lower upper n ≤ units (unpacked upper)) :
    s ≤ lower + .ofNat n * share lower upper n := by
  refine le_add_of_units hs h.lower_finite (h.steps_nonneg le_rfl) (h.not_isNaN_steps le_rfl) ?_
  intro hfinite
  have hsteps := h.le_units_steps hfinite
  rw [extent_cast] at hsteps
  have hreach : (units (unpacked s) : ℚ)
      ≤ units (unpacked lower) + units (unpacked (.ofNat n * share lower upper n)) := by
    linarith
  exact_mod_cast hreach

/-- **The last edge going down** reaches them likewise. -/
theorem sub_steps_le (h : Divided lower upper n) (hs : IsFinite s)
    (hle : (units (unpacked lower) : ℚ) + margin lower upper n ≤ units (unpacked s)) :
    upper - .ofNat n * share lower upper n ≤ s := by
  refine sub_le_of_units hs h.upper_finite (h.steps_nonneg le_rfl) (h.not_isNaN_steps le_rfl) ?_
  intro hfinite
  have hsteps := h.le_units_steps hfinite
  rw [extent_cast] at hsteps
  have hreach : (units (unpacked upper) : ℚ)
      - units (unpacked (.ofNat n * share lower upper n)) ≤ units (unpacked s) := by
    linarith
  exact_mod_cast hreach

/-- An edge before the last one is finite, in both directions. -/
theorem isFinite_edge_of_lt (h : Divided lower upper n) (hi : i < n) :
    IsFinite (lower + .ofNat i * share lower upper n) ∧
      IsFinite (upper - .ofNat i * share lower upper n) := by
  obtain ⟨hfinite, hsteps⟩ := h.units_steps_le_of_lt hi
  have hnonneg := h.steps_nonneg hi.le
  have hcount : (n : ℚ) ≤ 2 ^ 32 := by exact_mod_cast h.count_lt.le
  have hlower := (abs_le.mp (abs_units_le h.lower_finite)).1
  have hupper := (abs_le.mp (abs_units_le h.upper_finite)).2
  have hstep := le_greatestStep
  rw [extent_cast] at hsteps
  constructor
  · refine isFinite_add_of_units h.lower_finite hnonneg hfinite ?_
    rw [overflowBound]
    linarith
  · refine isFinite_sub_of_units h.upper_finite hnonneg hfinite ?_
    rw [overflowBound]
    linarith

/-- **The last edge is finite**, too, if the range stays away from the greatest numbers. -/
theorem isFinite_last_edge (h : Divided lower upper n) (hmoderate : Moderate lower upper) :
    IsFinite (lower + .ofNat n * share lower upper n) ∧
      IsFinite (upper - .ofNat n * share lower upper n) := by
  obtain ⟨hlower, hupper, hextent⟩ := hmoderate
  have hcount : (n : ℚ) ≤ 2 ^ 32 := by exact_mod_cast h.count_lt.le
  have hextent' : (0 : ℚ) ≤ extent lower upper := by exact_mod_cast h.extent_nonneg
  have hstep := le_greatestStep
  have hbound : overflowBound = greatest + greatestStep / 2 := rfl
  have hgreatest : greatest = (2 ^ 53 - 1) * greatestStep := rfl
  have hnonneg := h.steps_nonneg le_rfl
  have hshares := h.steps_le_fraction le_rfl (one_mul (n : ℚ)).ge
  have hlength := (abs_le.mp h.abs_length_sub_le).2
  have hfinite : IsFinite (.ofNat n * share lower upper n) := by
    refine isFinite_of_roundsTo (h.not_isNaN_steps le_rfl) (h.roundsTo_steps le_rfl) ?_
    push_cast
    linarith
  have hsteps := (abs_le.mp (abs_units_sub_intCast_le hfinite (h.roundsTo_steps le_rfl))).2
  push_cast at hsteps
  have hends := extent_cast lower upper
  constructor
  · exact isFinite_add_of_units h.lower_finite hnonneg hfinite (by linarith)
  · exact isFinite_sub_of_units h.upper_finite hnonneg hfinite (by linarith)

end Divided

end Binary64

open Binary64 in
/-- The columns and the rows divide the region. -/
theorem View.Spanned.divided {v : View Float} (h : v.Spanned) :
    Divided v.region.min.x v.region.max.x v.size.columns ∧
      Divided v.region.min.y v.region.max.y v.size.rows := by
  obtain ⟨⟨hminx, hminy⟩, ⟨hmaxx, hmaxy⟩, hwidth, hheight⟩ := h.finite
  obtain ⟨⟨hcolumns, hcolumns'⟩, hrows, hrows'⟩ := h.counts
  exact ⟨⟨hminx, hmaxx, hwidth, h.ordered.1, hcolumns, hcolumns'⟩,
    hminy, hmaxy, hheight, h.ordered.2, hrows, hrows'⟩

end ImplicitPlot
