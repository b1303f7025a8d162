import ImplicitPlot.Proofs.Scalar.Encoding

/-!
# The order of binary64 numbers

Read as one integer, the exponent field and the mantissa field of a number grow with its magnitude.
With the sign of the number this integer is its rank, and numbers are compared as their ranks are.
Both zeros have the rank zero, and what is not a number is not compared.
-/

namespace ImplicitPlot.Binary64

open Float.Model

open UnpackedFloat (Sign)

/-- The fields of a finite number are within their bounds. -/
def Fits : UnpackedFloat → Prop
  | .finite _ m e _ => -1074 ≤ e ∧ e ≤ 971 ∧ m < 2 ^ 53 ∧ (-1074 < e → 2 ^ 52 ≤ m)
  | _ => True

/-- The exponent field and the mantissa field as one integer, with the sign of the number. -/
def rank : UnpackedFloat → Int
  | .infinity s => s.apply (2047 * 2 ^ 52)
  | .finite s m e _ => s.apply ((e + 1074) * 2 ^ 52 + m)
  | .zero _ | .notANumber => 0

theorem fits_decode (s : Sign) (exponent : BitVec 11) (mantissa : BitVec 52) :
    Fits (decode s exponent mantissa) := by
  have hlt := mantissa.isLt
  rw [decode]
  split
  · split <;> trivial
  next hones =>
    split
    · split
      · trivial
      · refine ⟨?_, ?_, ?_, ?_⟩ <;> omega
    next hzero =>
      have hne : exponent.toNat ≠ 2 ^ 11 - 1 := fun hnat ↦ hones (BitVec.eq_of_toNat_eq hnat)
      have hne' : exponent.toNat ≠ 0 := fun hnat ↦ hzero (BitVec.eq_of_toNat_eq hnat)
      have hexponent := exponent.isLt
      refine ⟨?_, ?_, ?_, ?_⟩ <;> omega

theorem rank_neg (u : UnpackedFloat) : rank u.neg = -rank u := by
  cases u with
  | infinity s => cases s <;> rfl
  | finite s m e hm =>
    cases s with
    | positive => rfl
    | negative => exact (Int.neg_neg _).symm
  | zero | notANumber => rfl

theorem compare_neg (x y : Int) : compare (-x) (-y) = compare y x := by
  rcases Int.lt_trichotomy x y with h | rfl | h
  · rw [Int.compare_eq_gt.mpr h, Int.compare_eq_gt.mpr (Int.neg_lt_neg h)]
  · rw [Int.compare_eq_eq.mpr rfl, Int.compare_eq_eq.mpr rfl]
  · rw [Int.compare_eq_lt.mpr h, Int.compare_eq_lt.mpr (Int.neg_lt_neg h)]

private theorem compare_then {s t : Sign} {m n : Nat} {d e : Int} {hm : 0 < m} {hn : 0 < n}
    (ha : Fits (.finite s m d hm)) (hb : Fits (.finite t n e hn)) :
    (compare d e).then (compare m n)
      = compare ((d + 1074) * 2 ^ 52 + m : Int) ((e + 1074) * 2 ^ 52 + n) := by
  obtain ⟨hd, -, hm', hm''⟩ := ha
  obtain ⟨he, -, hn', hn''⟩ := hb
  rcases Int.lt_trichotomy d e with h | rfl | h
  · rw [Int.compare_eq_lt.mpr h, Int.compare_eq_lt.mpr (by omega)]
    rfl
  · rw [Int.compare_eq_eq.mpr rfl, Ordering.then]
    rcases Nat.lt_trichotomy m n with h | rfl | h
    · rw [Nat.compare_eq_lt.mpr h, Int.compare_eq_lt.mpr (by omega)]
    · rw [Nat.compare_eq_eq.mpr rfl, Int.compare_eq_eq.mpr rfl]
    · rw [Nat.compare_eq_gt.mpr h, Int.compare_eq_gt.mpr (by omega)]
  · rw [Int.compare_eq_gt.mpr h, Int.compare_eq_gt.mpr (by omega)]
    rfl

/-- A finite number is on the side of zero that its sign tells, between the infinities. -/
theorem rank_finite {s : Sign} {m : Nat} {e : Int} {hm : 0 < m} (h : Fits (.finite s m e hm)) :
    s = .positive ∧ 0 < rank (.finite s m e hm) ∧ rank (.finite s m e hm) < 2047 * 2 ^ 52 ∨
      s = .negative ∧ -(2047 * 2 ^ 52) < rank (.finite s m e hm) ∧ rank (.finite s m e hm) < 0 := by
  obtain ⟨hlower, hupper, hbits, -⟩ := h
  cases s with
  | positive =>
    refine .inl ⟨rfl, ?_⟩
    rw [rank, Sign.apply]
    omega
  | negative =>
    refine .inr ⟨rfl, ?_⟩
    rw [rank, Sign.apply]
    omega

/-- **The rank tells numbers apart**, except for the two zeros: the sign is that of the rank, and
the exponent and the mantissa are its digits. -/
theorem eq_or_zero_of_rank_eq {u v : UnpackedFloat} (hu : u ≠ .notANumber) (hv : v ≠ .notANumber)
    (hfu : Fits u) (hfv : Fits v) (h : rank u = rank v) :
    u = v ∨ (∃ s, u = .zero s) ∧ ∃ s, v = .zero s := by
  match u, v, hu, hv, hfu, hfv with
  | .notANumber, _, hu, _, _, _ => exact absurd rfl hu
  | _, .notANumber, _, hv, _, _ => exact absurd rfl hv
  | .zero s, .zero t, _, _, _, _ => exact .inr ⟨⟨s, rfl⟩, t, rfl⟩
  | .infinity s, .infinity t, _, _, _, _ =>
    cases s <;> cases t
    · exact .inl rfl
    · exact absurd h (by decide)
    · exact absurd h (by decide)
    · exact .inl rfl
  | .infinity s, .zero _, _, _, _, _ => cases s <;> exact absurd h (by simp [rank, Sign.apply])
  | .zero _, .infinity t, _, _, _, _ => cases t <;> exact absurd h (by simp [rank, Sign.apply])
  | .infinity s, .finite _ _ _ _, _, _, _, hfv =>
    have hrank := rank_finite hfv
    cases s <;> rw [← h, rank, Sign.apply] at hrank <;> omega
  | .finite _ _ _ _, .infinity t, _, _, hfu, _ =>
    have hrank := rank_finite hfu
    cases t <;> rw [h, rank, Sign.apply] at hrank <;> omega
  | .zero _, .finite _ _ _ _, _, _, _, hfv =>
    have hrank := rank_finite hfv
    rw [← h, rank] at hrank
    omega
  | .finite _ _ _ _, .zero _, _, _, hfu, _ =>
    have hrank := rank_finite hfu
    rw [h, rank] at hrank
    omega
  | .finite s m e hm, .finite t n d hn, _, _, hfu, hfv =>
    have hsign : s = t := by
      rcases rank_finite hfu with ⟨rfl, hpos, -⟩ | ⟨rfl, -, hneg⟩ <;>
        rcases rank_finite hfv with ⟨rfl, hpos', -⟩ | ⟨rfl, -, hneg'⟩
      · rfl
      · omega
      · omega
      · rfl
    subst hsign
    obtain ⟨hlower, -, hbits, hnormal⟩ := hfu
    obtain ⟨hlower', -, hbits', hnormal'⟩ := hfv
    have hfields : (e + 1074) * 2 ^ 52 + m = (d + 1074) * 2 ^ 52 + n := by
      cases s with
      | positive => exact h
      | negative => exact Int.neg_inj.mp h
    obtain rfl : e = d := by omega
    obtain rfl : m = n := by omega
    exact .inl rfl

theorem rank_abs {u : UnpackedFloat} (h : Fits u) : rank u.abs = (rank u).natAbs := by
  cases u with
  | notANumber | zero => rfl
  | infinity s => cases s <;> rfl
  | finite s m e hm =>
    obtain ⟨rfl, hpos, -⟩ | ⟨rfl, -, hneg⟩ := rank_finite h
    · exact (Int.natAbs_of_nonneg (Int.le_of_lt hpos)).symm
    · have habs : rank (UnpackedFloat.finite .negative m e hm).abs
          = -rank (.finite .negative m e hm) := (Int.neg_neg _).symm
      omega

/-- **Numbers are compared as their ranks.** -/
theorem compare_eq {a b : UnpackedFloat} (ha : Fits a) (hb : Fits b) (hna : a ≠ .notANumber)
    (hnb : b ≠ .notANumber) : a.compare b = some (compare (rank a) (rank b)) := by
  have hlt : ∀ {x y : Int}, x < y → some Ordering.lt = some (compare x y) :=
    fun h ↦ congrArg some (Int.compare_eq_lt.mpr h).symm
  have hgt : ∀ {x y : Int}, y < x → some Ordering.gt = some (compare x y) :=
    fun h ↦ congrArg some (Int.compare_eq_gt.mpr h).symm
  cases a with
  | notANumber => exact absurd rfl hna
  | infinity s =>
    cases b with
    | notANumber => exact absurd rfl hnb
    | infinity t => cases s <;> cases t <;> rfl
    | zero t => cases s <;> rfl
    | finite t n e hn =>
      -- The rank of an infinity is beyond those of all finite numbers.
      have hrank := rank_finite hb
      cases s with
      | positive => exact hgt (show _ < (2047 * 2 ^ 52 : Int) by omega)
      | negative => exact hlt (show (-(2047 * 2 ^ 52) : Int) < _ by omega)
  | zero s =>
    cases b with
    | notANumber => exact absurd rfl hnb
    | infinity t => cases t <;> rfl
    | zero t => rfl
    | finite t n e hn =>
      obtain ⟨rfl, hpos, -⟩ | ⟨rfl, -, hneg⟩ := rank_finite hb
      · exact hlt hpos
      · exact hgt hneg
  | finite s m d hm =>
    cases b with
    | notANumber => exact absurd rfl hnb
    | infinity t =>
      have hrank := rank_finite ha
      cases t with
      | positive => cases s <;> exact hlt (show _ < (2047 * 2 ^ 52 : Int) by omega)
      | negative => cases s <;> exact hgt (show (-(2047 * 2 ^ 52) : Int) < _ by omega)
    | zero t =>
      obtain ⟨rfl, hpos, -⟩ | ⟨rfl, -, hneg⟩ := rank_finite ha
      · exact hgt hpos
      · exact hlt hneg
    | finite t n e hn =>
      have hfields := compare_then ha hb
      obtain ⟨rfl, hpos, -⟩ | ⟨rfl, -, hneg⟩ := rank_finite ha
      · obtain ⟨rfl, hpos', -⟩ | ⟨rfl, -, hneg'⟩ := rank_finite hb
        · exact congrArg some hfields
        · exact hgt (Int.lt_trans hneg' hpos)
      · obtain ⟨rfl, hpos', -⟩ | ⟨rfl, -, hneg'⟩ := rank_finite hb
        · exact hlt (Int.lt_trans hneg hpos')
        · refine congrArg some ?_
          rw [hfields, Int.compare_swap]
          exact (compare_neg _ _).symm

end ImplicitPlot.Binary64
