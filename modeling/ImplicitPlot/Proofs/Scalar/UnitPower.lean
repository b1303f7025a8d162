import ImplicitPlot.Proofs.Scalar.Size

/-!
# A power to compute with

What is asked of a power are a few facts about signs and zeros. This power has them, and it can be
computed in a proof: for a base of minus one, zero or one, and an exponent that is an integer, it is
the power, and for every other base it only has the sign of one.
-/

namespace ImplicitPlot.Binary64

open Scalar (Agree IsEven IsNaN)

/-- The power of minus one, zero or one to an integer. -/
def unitPower (a b : Float) : Float :=
  if Agree b 0 then 1
  else if Agree a 0 then if 0 < b then 0 else infinity
  else if a < 0 ∧ ¬IsEven b then -1
  else 1

theorem not_agree_zero {a : Float} (h : a < 0 ∨ 0 < a) : ¬Agree a 0 := by
  rintro ⟨hle, hge⟩
  rcases h with h | h
  · exact (lt_iff_le_not_le.mp h).2 hge
  · exact (lt_iff_le_not_le.mp h).2 hle

theorem isEven_of_agree_zero {b : Float} (h : Agree b 0) : IsEven b := by
  rcases eq_zero_or_neg_zero h with rfl | rfl
  · decide +kernel
  · decide +kernel

private theorem unitPower_of_odd {a b : Float} (ha : a < 0) (hb : ¬IsEven b) :
    unitPower a b = -1 := by
  rw [unitPower, if_neg (mt isEven_of_agree_zero hb), if_neg (not_agree_zero (.inl ha)),
    if_pos ⟨ha, hb⟩]

private theorem unitPower_nonneg {a b : Float} (ha : 0 < a) : 0 ≤ unitPower a b := by
  have hneg : ¬a < 0 := fun hlt ↦ (lt_iff_le_not_le.mp ha).2 (lt_iff_le_not_le.mp hlt).1
  have hodd : ¬(a < 0 ∧ ¬IsEven b) := fun h ↦ hneg h.1
  rw [unitPower, if_neg (not_agree_zero (.inr ha)), if_neg hodd, ite_self]
  decide +kernel

/-- The signs are those of powers. -/
theorem signedPowers_unitPower : @Scalar.SignedPowers Float (arithmetic unitPower) :=
  letI := arithmetic unitPower
  { pow_nonneg := fun ha _ ↦ unitPower_nonneg ha
    pow_nonpos := by
      intro a t ha _ hodd _
      have hpower : unitPower a (Scalar.round t) = -1 := unitPower_of_odd ha hodd
      change unitPower a (Scalar.round t) ≤ 0
      rw [hpower]
      decide +kernel }

theorem powersOfZero_unitPower : PowersOfZero unitPower where
  pow_zero := by
    intro a b _ hb
    rw [unitPower, if_pos hb]
    decide +kernel
  zero_pow := by
    intro a b ha hb
    rw [unitPower, if_neg (not_agree_zero (.inr hb)), if_pos ha, if_pos hb]
    decide +kernel

end ImplicitPlot.Binary64
