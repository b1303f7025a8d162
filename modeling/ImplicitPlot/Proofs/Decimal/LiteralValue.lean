import ImplicitPlot.Decimal.Literal
import ImplicitPlot.Proofs.Scalar.Product

/-!
# The values of literals

A literal has no sign, and its value is a number with a clear sign bit, perhaps an infinity
(`Literal.value_isNumber`). Rounding keeps signs, so this holds of products and quotients as it does
of their operands, and the value of a literal is a product or quotient of positive numbers.
-/

namespace ImplicitPlot

namespace Binary64

open Float.Model

open UnpackedFloat (packComponents)

/-- A number, perhaps an infinity, with a clear sign. -/
inductive IsClear : UnpackedFloat → Prop
  | zero : IsClear (.zero .positive)
  | infinity : IsClear (.infinity .positive)
  | finite (m : Nat) (e : Int) (hm : 0 < m) : IsClear (.finite .positive m e hm)

theorem isClear_roundWithAccuracy (spec : Format) (m : Nat) (e : Int)
    (accuracy : UnpackedFloat.Accuracy) :
    IsClear (UnpackedFloat.roundWithAccuracy spec .positive m e accuracy) := by
  rw [UnpackedFloat.roundWithAccuracy]
  dsimp only
  split
  · exact .zero
  · exact .finite _ _ _

/-! ## Encoding -/

private theorem isClear_decode {exponent : BitVec 11} {mantissa : BitVec 52}
    (h : decode .positive exponent mantissa ≠ .notANumber) :
    IsClear (decode .positive exponent mantissa) := by
  rw [decode] at h ⊢
  split
  next hones =>
    rw [if_pos hones] at h
    split
    · exact .infinity
    next hmantissa => exact absurd (if_neg hmantissa) h
  next =>
    split
    · split
      · exact .zero
      · exact .finite _ _ _
    · exact .finite _ _ _

variable {u v : UnpackedFloat}

theorem IsClear.ne_notANumber (h : IsClear u) : u ≠ .notANumber := by
  cases h <;> exact UnpackedFloat.noConfusion

theorem IsClear.exists_pack_eq (h : IsClear u) : ∃ exponent mantissa,
    UnpackedFloat.pack .binary64 u = packComponents .binary64 .positive exponent mantissa := by
  cases h with
  | zero | infinity => exact ⟨_, _, rfl⟩
  | finite m e hm =>
    rw [UnpackedFloat.pack]
    dsimp only
    split
    · exact ⟨_, _, rfl⟩
    · split <;> exact ⟨_, _, rfl⟩

/-- Encoding keeps clear signs. -/
theorem IsClear.unpack_pack (h : IsClear u) :
    IsClear (UnpackedFloat.unpack .binary64 (UnpackedFloat.pack .binary64 u)) := by
  have hnumber := unpack_pack_ne_notANumber h.ne_notANumber
  obtain ⟨exponent, mantissa, hpack⟩ := h.exists_pack_eq
  rw [hpack, unpack_packComponents] at hnumber ⊢
  exact isClear_decode hnumber

private theorem toNat_packComponents_lt (exponent : BitVec 11) (mantissa : BitVec 52) :
    (packComponents .binary64 .positive exponent mantissa).toNat < Nat.pow 2 63 := by
  have hexponent : exponent.toNat < 2 ^ 11 := exponent.isLt
  have hshift : (exponent.toNat : Nat) <<< 52 < 2 ^ 63 := by
    rw [Nat.shiftLeft_eq]
    omega
  have hmantissa : mantissa.toNat < 2 ^ 63 := Nat.lt_trans mantissa.isLt (by decide)
  rw [packComponents, BitVec.toNat_append, BitVec.toNat_append]
  change ((0 <<< 11) ||| exponent.toNat) <<< 52 ||| mantissa.toNat < 2 ^ 63
  rw [Nat.zero_shiftLeft, Nat.zero_or]
  exact Nat.or_lt_two_pow hshift hmantissa

theorem IsClear.toBits_lt {c : Float} (h : IsClear (unpacked c)) :
    c.toBits.toNat < Nat.pow 2 63 := by
  obtain ⟨exponent, mantissa, hpack⟩ := h.exists_pack_eq
  have hbits : c.toModel.toBits
      = .ofBitVec (packComponents .binary64 .positive exponent mantissa) := by
    rw [← hpack]
    exact congrArg Float.Model.toBits (pack_unpack c.toModel).symm
  have htoNat : c.toBits.toNat = c.toModel.toBits.toNat := rfl
  rw [htoNat, hbits]
  exact toNat_packComponents_lt exponent mantissa

theorem IsClear.not_isNaN {c : Float} (h : IsClear (unpacked c)) : ¬Scalar.IsNaN c :=
  fun hnan ↦ h.ne_notANumber (isNaN_iff.mp hnan)

/-! ## Products and quotients -/

theorem IsClear.mul (h : IsClear u) {m : Nat} {e : Int} (hm : 0 < m) :
    IsClear (UnpackedFloat.mul .binary64 u (.finite .positive m e hm)) := by
  cases h with
  | zero => exact .zero
  | infinity => exact .infinity
  | finite => exact isClear_roundWithAccuracy _ _ _ _

theorem IsClear.div (h : IsClear u) {m : Nat} {e : Int} (hm : 0 < m) :
    IsClear (UnpackedFloat.div .binary64 u (.finite .positive m e hm)) := by
  cases h with
  | zero => exact .zero
  | infinity => exact .infinity
  | finite => exact isClear_roundWithAccuracy _ _ _ _

private theorem isClear_ofNat (n : Nat) : IsClear (UnpackedFloat.ofNat .binary64 n) := by
  rw [UnpackedFloat.ofNat, UnpackedFloat.ofInt, UnpackedFloat.normalize]
  split
  next hlt => exact absurd (Int.natCast_nonneg n) (Int.not_le.mpr (Int.compare_eq_lt.mp hlt))
  next => exact .zero
  next => exact isClear_roundWithAccuracy _ _ _ _

private theorem isClear_ofScientific (n : Nat) (e : Int) :
    IsClear (UnpackedFloat.ofScientific .binary64 n e) := by
  rw [UnpackedFloat.ofScientific]
  split
  · exact .zero
  split
  · exact .infinity
  split
  · exact .zero
  split
  · exact (IsClear.finite _ _ _).mul _
  · exact (IsClear.finite _ _ _).div _

/-- The number is finite, and greater than zero. -/
def isPositive : UnpackedFloat → Bool
  | .finite .positive .. => true
  | _ => false

private theorem exists_of_isPositive {v : UnpackedFloat} (h : isPositive v = true) :
    ∃ m e hm, v = .finite .positive m e hm := by
  cases v with
  | notANumber | infinity | zero => cases h
  | finite s m e hm =>
    cases s with
    | positive => exact ⟨m, e, hm, rfl⟩
    | negative => cases h

/-- The powers of ten that are represented are positive and finite. -/
theorem isPositive_powerOfTen : ∀ i : Fin Float.exactlyRepresentablePowersOfTen.size,
    isPositive (unpacked Float.exactlyRepresentablePowersOfTen[i]) = true := by
  decide

private theorem isClear_unpacked_ofScientific (n : Nat) (s : Bool) (e : Nat) :
    IsClear (unpacked (OfScientific.ofScientific n s e)) := by
  change IsClear (unpacked (Float.ofScientific n s e))
  rw [Float.ofScientific]
  split
  next h =>
    obtain ⟨m, k, hm, hpower⟩ :=
      exists_of_isPositive (isPositive_powerOfTen ⟨e, Nat.lt_succ_of_le h.2⟩)
    have hfirst : IsClear (unpacked n.toUInt64.toFloat) := (isClear_ofNat _).unpack_pack
    split
    · have hdiv := hfirst.div (e := k) hm
      rw [← hpower] at hdiv
      exact hdiv.unpack_pack
    · have hmul := hfirst.mul (e := k) hm
      rw [← hpower] at hmul
      exact hmul.unpack_pack
  next => exact (isClear_ofScientific _ _).unpack_pack

end Binary64

namespace Decimal

open Binary64

theorem isClear_unpacked_nearest (n : Nat) (e : Int) : IsClear (unpacked (nearest n e)) := by
  rw [nearest]
  split
  · rw [unpacked_zero]
    exact .zero
  split
  · exact .infinity
  split <;> exact isClear_unpacked_ofScientific _ _ _

/-- **The value of a literal is a number with a clear sign bit.** -/
theorem Literal.value_isNumber (l : Literal) :
    ¬Scalar.IsNaN l.value ∧ l.value.toBits.toNat < Nat.pow 2 63 :=
  ⟨(isClear_unpacked_nearest _ _).not_isNaN, (isClear_unpacked_nearest _ _).toBits_lt⟩

end Decimal

end ImplicitPlot
