import Mathlib

/-!
# The encoding of binary64 numbers

A number is stored as a sign, an exponent field and a mantissa field, and every operation decodes
its arguments and encodes its result. Encoding keeps a decoded number whose sign has been changed,
so that the operations on signs can be told from their values on decoded numbers.
-/

namespace ImplicitPlot.Binary64

open Float.Model

open UnpackedFloat (Sign packComponents unpackSign unpackExponent unpackMantissa)

/-- The number with the given fields. -/
def decode (s : Sign) (exponent : BitVec 11) (mantissa : BitVec 52) : UnpackedFloat :=
  if exponent = -1#11 then
    if mantissa = 0#52 then .infinity s else .notANumber
  else if exponent = 0#11 then
    if h : mantissa = 0#52 then .zero s
    else .finite s mantissa.toNat (-1074)
      (Nat.pos_of_ne_zero fun hzero ↦ h (BitVec.eq_of_toNat_eq hzero))
  else .finite s (2 ^ 52 + mantissa.toNat) (exponent.toNat - 1075) (by omega)

theorem unpack_eq_decode (b : BitVec Format.binary64.numBits) :
    UnpackedFloat.unpack .binary64 b
      = decode (.ofBitVec (unpackSign b)) (unpackExponent b) (unpackMantissa b) := by
  have happend : (1#1 ++ unpackMantissa b).toNat = 2 ^ 52 + (unpackMantissa b).toNat := by
    rw [BitVec.toNat_append, ← Nat.shiftLeft_add_eq_or_of_lt (unpackMantissa b).isLt]
    rfl
  have hbias : (Format.binary64.exponentBias + Format.binary64.mantissaBitsWithoutImplicit : Int)
      = 1075 := rfl
  rw [UnpackedFloat.unpack, decode]
  simp only [happend, hbias]
  split
  · rfl
  split
  next hzero =>
    simp only [hzero]
    rfl
  next => rfl

variable {s : Sign} {exponent : BitVec 11} {mantissa : BitVec 52}

/-- The fields of a number are those that it has been decoded from, but there are many for what is
not a number. -/
theorem pack_decode (h : exponent = -1#11 → mantissa = 0#52) :
    UnpackedFloat.pack .binary64 (decode s exponent mantissa)
      = packComponents .binary64 s exponent mantissa := by
  have hbits : Format.binary64.mantissaBits = 53 := rfl
  have hlt := mantissa.isLt
  rw [decode]
  split
  next hones =>
    rw [if_pos (h hones), hones, h hones]
    rfl
  next hones =>
    split
    next hzero =>
      split
      next hmantissa =>
        rw [hzero, hmantissa]
        rfl
      next hmantissa =>
        -- A mantissa without the leading bit tells a number below the normal ones.
        have hne : mantissa.toNat ≠ 0 := fun hnat ↦ hmantissa (BitVec.eq_of_toNat_eq hnat)
        have hlog : ¬mantissa.toNat.log2 + 1 = Format.binary64.mantissaBits := by
          have hlog : mantissa.toNat.log2 < 52 := (Nat.log2_lt hne).mpr hlt
          omega
        have hbiased : (-1074 + Format.binary64.exponentBias
            + Format.binary64.mantissaBitsWithoutImplicit : Int).toNat = 1 := rfl
        rw [UnpackedFloat.pack]
        simp only [hbiased]
        rw [if_neg (by decide), if_neg hlog, hzero, BitVec.ofNat_toNat, BitVec.setWidth_eq]
    next hzero =>
      have hexponent : exponent.toNat < 2 ^ 11 - 1 := by
        have hne : exponent.toNat ≠ 2 ^ 11 - 1 := fun hnat ↦ hones (BitVec.eq_of_toNat_eq hnat)
        have hlt := exponent.isLt
        omega
      -- The leading bit of a normal number is not stored.
      have hlog : (2 ^ 52 + mantissa.toNat).log2 + 1 = Format.binary64.mantissaBits := by
        have hne : 2 ^ 52 + mantissa.toNat ≠ 0 := by omega
        have hlower : 52 ≤ (2 ^ 52 + mantissa.toNat).log2 := (Nat.le_log2 hne).mpr (by omega)
        have hupper : (2 ^ 52 + mantissa.toNat).log2 < 53 := (Nat.log2_lt hne).mpr (by omega)
        omega
      have hbiased : ((exponent.toNat : Int) - 1075 + Format.binary64.exponentBias
          + Format.binary64.mantissaBitsWithoutImplicit).toNat = exponent.toNat := by
        change ((exponent.toNat : Int) - 1075 + 1023 + 52).toNat = exponent.toNat
        omega
      have hroom : ¬2 ^ Format.binary64.exponentBits ≤ exponent.toNat + 1 := by
        change ¬2 ^ 11 ≤ exponent.toNat + 1
        omega
      have hmantissa : BitVec.ofNat 52 (2 ^ 52 + mantissa.toNat) = mantissa := by
        apply BitVec.eq_of_toNat_eq
        rw [BitVec.toNat_ofNat]
        omega
      rw [UnpackedFloat.pack]
      simp only [hbiased]
      rw [if_neg hroom, if_pos hlog, BitVec.ofNat_toNat, BitVec.setWidth_eq, hmantissa]

private theorem unpackSign_packComponents :
    Sign.ofBitVec (unpackSign (packComponents .binary64 s exponent mantissa)) = s := by
  have hsign : unpackSign (packComponents .binary64 s exponent mantissa) = s.toBitVec := by
    rw [unpackSign, packComponents, BitVec.extractLsb,
      BitVec.extractLsb'_append_eq_of_le (by decide),
      BitVec.extractLsb'_append_eq_of_le (by decide)]
    exact BitVec.extractLsb'_eq_self
  rw [hsign]
  cases s <;> rfl

private theorem packComponents_unpack (b : BitVec Format.binary64.numBits) :
    packComponents .binary64 (.ofBitVec (unpackSign b)) (unpackExponent b) (unpackMantissa b)
      = b := by
  have hsign : ∀ v : BitVec 1, (Sign.ofBitVec v).toBitVec = v := by decide
  rw [packComponents, hsign, unpackSign, unpackExponent, unpackMantissa]
  change b.extractLsb' 63 1 ++ b.extractLsb' 52 11 ++ b.extractLsb' 0 52 = b
  rw [BitVec.extractLsb'_append_extractLsb'_eq_extractLsb' (show 63 = 52 + 11 from rfl),
    BitVec.extractLsb'_append_extractLsb'_eq_extractLsb' (show 52 = 0 + 52 from rfl)]
  exact BitVec.extractLsb'_eq_self

/-- Encoded fields are decoded as the number with these fields. -/
theorem unpack_packComponents (s : Sign) (exponent : BitVec 11) (mantissa : BitVec 52) :
    UnpackedFloat.unpack .binary64 (packComponents .binary64 s exponent mantissa)
      = decode s exponent mantissa := by
  rw [unpack_eq_decode, unpackSign_packComponents]
  simp only [UnpackedFloat.unpackExponent_packComponents,
    UnpackedFloat.unpackMantissa_packComponents]

theorem unpack_pack_decode (s : Sign) (exponent : BitVec 11) (mantissa : BitVec 52) :
    UnpackedFloat.unpack .binary64 (UnpackedFloat.pack .binary64 (decode s exponent mantissa))
      = decode s exponent mantissa := by
  by_cases h : exponent = -1#11 → mantissa = 0#52
  · rw [pack_decode h, unpack_packComponents]
  · obtain ⟨hones, hmantissa⟩ := Classical.not_imp.mp h
    rw [decode, if_pos hones, if_neg hmantissa]
    rfl

theorem pack_unpack_of_valid {b : BitVec Format.binary64.numBits} (h : Format.binary64.Valid b) :
    UnpackedFloat.pack .binary64 (UnpackedFloat.unpack .binary64 b) = b := by
  rw [unpack_eq_decode]
  by_cases hfields : unpackExponent b = -1#11 → unpackMantissa b = 0#52
  · rw [pack_decode hfields, packComponents_unpack]
  · obtain ⟨hones, hmantissa⟩ := Classical.not_imp.mp hfields
    rw [decode, if_pos hones, if_neg hmantissa]
    exact (h.eq_packedNaN hones hmantissa).symm

theorem pack_unpack (x : Float.Model) : .pack x.unpack = x := by
  have hbits : UInt64.ofBitVec (UnpackedFloat.pack .binary64 x.unpack) = x.toBits :=
    congrArg UInt64.ofBitVec (pack_unpack_of_valid x.valid)
  rw [Float.Model.pack]
  simp only [hbits]

/-! ## Signs -/

theorem exists_decode (x : Float.Model) :
    ∃ s exponent mantissa, x.unpack = decode s exponent mantissa :=
  ⟨_, _, _, unpack_eq_decode x.toBits.toBitVec⟩

@[simp] theorem neg_decode : (decode s exponent mantissa).neg = decode (-s) exponent mantissa := by
  rw [decode, decode]
  split
  · split <;> rfl
  split
  · split <;> rfl
  · rfl

@[simp] theorem abs_decode :
    (decode s exponent mantissa).abs = decode .positive exponent mantissa := by
  rw [decode, decode]
  split
  · split <;> rfl
  split
  · split <;> rfl
  · rfl

theorem unpack_neg (x : Float.Model) : (-x).unpack = x.unpack.neg := by
  obtain ⟨s, exponent, mantissa, h⟩ := exists_decode x
  change UnpackedFloat.unpack _ (UnpackedFloat.pack _ x.unpack.neg) = _
  rw [h, neg_decode, unpack_pack_decode]

theorem unpack_abs (x : Float.Model) : x.abs.unpack = x.unpack.abs := by
  obtain ⟨s, exponent, mantissa, h⟩ := exists_decode x
  change UnpackedFloat.unpack _ (UnpackedFloat.pack _ x.unpack.abs) = _
  rw [h, abs_decode, unpack_pack_decode]

end ImplicitPlot.Binary64
