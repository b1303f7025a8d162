import Mathlib.Logic.Basic
import ImplicitPlot.Scalar

/-!
# Laws of scalars

The class of scalars has no laws. Statements about intervals need a few groups of them.

`Scalar.Lawful` is about the order, the signs and what it means to be finite. It does not say that
numbers of equal size are the same: there are two zeros, so equal size is `Agree`, and the order is
only a preorder. Nor does it say that every value is a number. Binary64 numbers have these laws
(`Binary64.lawful`), as have exact numbers.

`Scalar.OrderPreserving` says that the operations on finite numbers follow the order wherever the
exact operations do. Rounding to a nearest number keeps the order, so this allows for rounding, and
for results that overflow. Binary64 numbers have these laws (`Binary64.orderPreserving`) if their
power has those of `Scalar.OrderedPowers`, and exact numbers have them all. The laws of powers are
for integral exponents only: there the sign of a base matters by the parity of the exponent. The
power is the platform's, so they are assumed of it; a power that is rounded from the exact one has
them (`Binary64.orderedPowers_roundedPower`).

`Scalar.OrderedSums` and `Scalar.SignedPowers` are about all numbers, the infinities among them. The
one says that sums and differences follow the order unless they are not numbers, which is so of
binary64 numbers (`Binary64.orderedSums`). The other one says which sign a power has, and is all
that is asked of the platform's power where only the order of bounds matters.

`Scalar.SizeDetermined` says that the sign of a zero does not matter to the size of a result, apart
from what is divided by it.
-/

namespace ImplicitPlot

namespace Scalar

/-- Order, signs and finite numbers are as they should be. -/
class Lawful (α : Type) [Scalar α] : Prop where
  le_trans {a b c : α} : a ≤ b → b ≤ c → a ≤ c
  lt_iff {a b : α} : a < b ↔ a ≤ b ∧ ¬b ≤ a
  not_isNaN_of_le {a b : α} : a ≤ b → ¬IsNaN a ∧ ¬IsNaN b
  le_total {a b : α} : ¬IsNaN a → ¬IsNaN b → a ≤ b ∨ b ≤ a
  neg_le_neg {a b : α} : a ≤ b → -b ≤ -a
  neg_neg (a : α) : - -a = a
  neg_zero : Agree (-0 : α) 0
  abs_of_nonneg {a : α} : 0 ≤ a → Agree (abs a) a
  abs_of_nonpos {a : α} : a ≤ 0 → Agree (abs a) (-a)
  not_isNaN_of_isFinite {a : α} : IsFinite a → ¬IsNaN a
  isFinite_neg {a : α} : IsFinite a → IsFinite (-a)
  sub_self {a : α} : IsFinite a → Agree (a - a) 0
  isNaN_nan {a : α} : IsNaN a → IsNaN (nan : α)
  round_neg (a : α) : round (-a) = -round a
  zeroTolerance_pos : (0 : α) < zeroTolerance

/-- Powers of finite numbers to integral exponents follow the order where the exact powers do, and
have the signs of the exact powers. -/
class OrderedPowers (α : Type) [Scalar α] : Prop where
  /-- A zero has no power to a negative exponent: its reciprocal has the sign of the zero. -/
  pow_nonneg {a k : α} : IsFinite a → IsFinite k → round k = k → 0 ≤ k ∨ 0 < a → 0 ≤ a →
    0 ≤ pow a k
  pow_le_pow {a b k : α} : IsFinite a → IsFinite b → IsFinite k → round k = k → 0 ≤ k →
    0 ≤ a → a ≤ b → pow a k ≤ pow b k
  pow_le_pow_of_neg {a b k : α} : IsFinite a → IsFinite b → IsFinite k → round k = k → k < 0 →
    0 < a → a ≤ b → pow b k ≤ pow a k
  pow_neg_of_even {a k : α} : IsFinite a → IsFinite k → round k = k → IsEven k →
    Agree (pow (-a) k) (pow a k)
  pow_neg_of_odd {a k : α} : IsFinite a → IsFinite k → round k = k → ¬IsEven k →
    Agree (pow (-a) k) (-pow a k)

/-- Operations on finite numbers follow the order where the exact operations do. -/
class OrderPreserving (α : Type) [Scalar α] : Prop extends OrderedPowers α where
  add_le_add_right {a b c : α} : IsFinite a → IsFinite b → IsFinite c → a ≤ b → a + c ≤ b + c
  add_le_add_left {a b c : α} : IsFinite a → IsFinite b → IsFinite c → a ≤ b → c + a ≤ c + b
  sub_le_sub_right {a b c : α} : IsFinite a → IsFinite b → IsFinite c → a ≤ b → a - c ≤ b - c
  sub_le_sub_left {a b c : α} : IsFinite a → IsFinite b → IsFinite c → a ≤ b → c - b ≤ c - a
  mul_le_mul_right {a b c : α} : IsFinite a → IsFinite b → IsFinite c → a ≤ b → 0 ≤ c →
    a * c ≤ b * c
  mul_le_mul_left {a b c : α} : IsFinite a → IsFinite b → IsFinite c → a ≤ b → 0 ≤ c →
    c * a ≤ c * b
  mul_le_mul_right_of_nonpos {a b c : α} : IsFinite a → IsFinite b → IsFinite c → a ≤ b → c ≤ 0 →
    b * c ≤ a * c
  mul_le_mul_left_of_nonpos {a b c : α} : IsFinite a → IsFinite b → IsFinite c → a ≤ b → c ≤ 0 →
    c * b ≤ c * a
  div_le_div_right {a b c : α} : IsFinite a → IsFinite b → IsFinite c → a ≤ b → 0 < c →
    a / c ≤ b / c
  div_le_div_right_of_neg {a b c : α} : IsFinite a → IsFinite b → IsFinite c → a ≤ b → c < 0 →
    b / c ≤ a / c
  /-- The two divisors are on the same side of zero. -/
  div_le_div_left {a b c : α} : IsFinite a → IsFinite b → IsFinite c → a ≤ b → 0 < a ∨ b < 0 →
    0 ≤ c → c / b ≤ c / a
  /-- The two divisors are on the same side of zero. -/
  div_le_div_left_of_nonpos {a b c : α} : IsFinite a → IsFinite b → IsFinite c → a ≤ b →
    0 < a ∨ b < 0 → c ≤ 0 → c / a ≤ c / b

/-- Sums and differences follow the order unless they are not numbers, and they are not numbers if
an operand is not. -/
class OrderedSums (α : Type) [Scalar α] : Prop where
  not_isNaN_of_add {a b : α} : ¬IsNaN (a + b) → ¬IsNaN a ∧ ¬IsNaN b
  not_isNaN_of_sub {a b : α} : ¬IsNaN (a - b) → ¬IsNaN a ∧ ¬IsNaN b
  add_le_add {a a' b b' : α} : a ≤ a' → b ≤ b' → ¬IsNaN (a + b) → ¬IsNaN (a' + b') →
    a + b ≤ a' + b'
  sub_le_sub {a a' b b' : α} : a ≤ a' → b' ≤ b → ¬IsNaN (a - b) → ¬IsNaN (a' - b') →
    a - b ≤ a' - b'

/-- The sign of a power: a positive base has no negative power, and a negative base has no positive
power to an odd integer. -/
class SignedPowers (α : Type) [Scalar α] : Prop where
  pow_nonneg {a b : α} : 0 < a → ¬IsNaN (pow a b) → 0 ≤ pow a b
  /-- The exponent is the integer that a value is close to, as `Interval.asInteger?` finds it. -/
  pow_nonpos {a t : α} : a < 0 → abs (t - round t) ≤ zeroTolerance → ¬IsEven (round t) →
    ¬IsNaN (pow a (round t)) → pow a (round t) ≤ 0

/-- Operands of equal size give results of equal size, unless they give none. A zero may have either
sign, which shows in its reciprocal: divisors that are zero are left out, and so are the powers of a
zero to a negative exponent. -/
class SizeDetermined (α : Type) [Scalar α] : Prop where
  add_agree {a a' b b' : α} : Agree a a' → Agree b b' → ¬IsNaN (a + b) →
    Agree (a + b) (a' + b')
  sub_agree {a a' b b' : α} : Agree a a' → Agree b b' → ¬IsNaN (a - b) →
    Agree (a - b) (a' - b')
  mul_agree {a a' b b' : α} : Agree a a' → Agree b b' → ¬IsNaN (a * b) →
    Agree (a * b) (a' * b')
  div_agree {a a' b b' : α} : Agree a a' → Agree b b' → ¬Agree b 0 → ¬IsNaN (a / b) →
    Agree (a / b) (a' / b')
  round_agree {a a' : α} : Agree a a' → Agree (round a) (round a')
  /-- A finite number has a distance from the nearest integer. -/
  not_isNaN_sub_round {a : α} : IsFinite a → ¬IsNaN (a - round a)
  pow_agree {a a' b b' : α} : Agree a a' → Agree b b' → ¬(b < 0 ∧ Agree a 0) → ¬IsNaN (pow a b) →
    Agree (pow a b) (pow a' b')

variable {α : Type} [Scalar α] {a b c : α}

theorem minNum_eq_or (a b : α) : minNum a b = a ∨ minNum a b = b := by
  rw [minNum]
  split
  · exact .inr rfl
  split
  · exact .inr rfl
  · exact .inl rfl

theorem maxNum_eq_or (a b : α) : maxNum a b = a ∨ maxNum a b = b := by
  rw [maxNum]
  split
  · exact .inr rfl
  split
  · exact .inr rfl
  · exact .inl rfl

@[simp] theorem minNum_self (a : α) : minNum a a = a := (minNum_eq_or a a).elim id id

@[simp] theorem maxNum_self (a : α) : maxNum a a = a := (maxNum_eq_or a a).elim id id

theorem minNum_of {P : α → Prop} (ha : P a) (hb : P b) : P (minNum a b) := by
  rcases minNum_eq_or a b with h | h
  · rwa [h]
  · rwa [h]

/-- What holds of two values holds of the greater one. -/
theorem maxNum_of {P : α → Prop} (ha : P a) (hb : P b) : P (maxNum a b) := by
  rcases maxNum_eq_or a b with h | h
  · rwa [h]
  · rwa [h]

theorem not_isNaN_minNum (ha : ¬IsNaN a) (hb : ¬IsNaN b) : ¬IsNaN (minNum a b) :=
  minNum_of (P := fun v ↦ ¬IsNaN v) ha hb

theorem not_isNaN_maxNum (ha : ¬IsNaN a) (hb : ¬IsNaN b) : ¬IsNaN (maxNum a b) :=
  maxNum_of (P := fun v ↦ ¬IsNaN v) ha hb

variable [Lawful α]

/-! ## The order -/

theorem le_refl_of_isFinite (h : IsFinite a) : a ≤ a :=
  not_not.mp (Lawful.not_isNaN_of_isFinite h)

theorem le_of_lt (h : a < b) : a ≤ b := (Lawful.lt_iff.mp h).1

theorem not_le_of_lt (h : a < b) : ¬b ≤ a := (Lawful.lt_iff.mp h).2

theorem not_lt_of_le (h : a ≤ b) : ¬b < a := fun hlt ↦ not_le_of_lt hlt h

theorem le_of_not_lt (ha : ¬IsNaN a) (hb : ¬IsNaN b) (h : ¬a < b) : b ≤ a := by
  rcases Lawful.le_total ha hb with hab | hba
  · exact by_contra fun hba ↦ h (Lawful.lt_iff.mpr ⟨hab, hba⟩)
  · exact hba

theorem lt_of_not_le (ha : ¬IsNaN a) (hb : ¬IsNaN b) (h : ¬a ≤ b) : b < a := by
  rcases Lawful.le_total ha hb with hab | hba
  · exact absurd hab h
  · exact Lawful.lt_iff.mpr ⟨hba, h⟩

theorem lt_of_lt_of_le (hab : a < b) (hbc : b ≤ c) : a < c :=
  Lawful.lt_iff.mpr
    ⟨Lawful.le_trans (le_of_lt hab) hbc, fun hca ↦ not_le_of_lt hab (Lawful.le_trans hbc hca)⟩

theorem lt_of_le_of_lt (hab : a ≤ b) (hbc : b < c) : a < c :=
  Lawful.lt_iff.mpr
    ⟨Lawful.le_trans hab (le_of_lt hbc), fun hca ↦ not_le_of_lt hbc (Lawful.le_trans hca hab)⟩

/-! ## Numbers of equal size -/

omit [Lawful α] in
theorem agree_self (h : ¬IsNaN a) : Agree a a := ⟨not_not.mp h, not_not.mp h⟩

namespace Agree

omit [Lawful α] in
theorem symm (h : Agree a b) : Agree b a := And.symm h

theorem trans (hab : Agree a b) (hbc : Agree b c) : Agree a c :=
  ⟨Lawful.le_trans hab.1 hbc.1, Lawful.le_trans hbc.2 hab.2⟩

theorem not_isNaN (h : Agree a b) : ¬IsNaN a ∧ ¬IsNaN b := Lawful.not_isNaN_of_le h.1

theorem le_iff {a' b' : α} (ha : Agree a a') (hb : Agree b b') : a ≤ b ↔ a' ≤ b' :=
  ⟨fun h ↦ Lawful.le_trans ha.2 (Lawful.le_trans h hb.1),
    fun h ↦ Lawful.le_trans ha.1 (Lawful.le_trans h hb.2)⟩

theorem lt_iff {a' b' : α} (ha : Agree a a') (hb : Agree b b') : a < b ↔ a' < b' := by
  rw [Lawful.lt_iff, Lawful.lt_iff, ha.le_iff hb, hb.le_iff ha]

theorem neg (h : Agree a b) : Agree (-a) (-b) := ⟨Lawful.neg_le_neg h.2, Lawful.neg_le_neg h.1⟩

end Agree

/-! ## Signs -/

@[simp] theorem neg_le_neg_iff : -b ≤ -a ↔ a ≤ b := by
  constructor
  · intro h
    have hneg := Lawful.neg_le_neg h
    rwa [Lawful.neg_neg, Lawful.neg_neg] at hneg
  · exact Lawful.neg_le_neg

@[simp] theorem isNaN_neg_iff : IsNaN (-a) ↔ IsNaN a := not_congr neg_le_neg_iff

@[simp] theorem neg_lt_neg_iff : -b < -a ↔ a < b := by
  rw [Lawful.lt_iff, Lawful.lt_iff, neg_le_neg_iff, neg_le_neg_iff]

@[simp] theorem neg_nonneg_iff : 0 ≤ -a ↔ a ≤ 0 := by
  constructor
  · intro h
    exact neg_le_neg_iff.mp (Lawful.le_trans Lawful.neg_zero.1 h)
  · intro h
    exact Lawful.le_trans Lawful.neg_zero.2 (Lawful.neg_le_neg h)

@[simp] theorem neg_nonpos_iff : -a ≤ 0 ↔ 0 ≤ a := by
  rw [← neg_nonneg_iff, Lawful.neg_neg]

@[simp] theorem neg_pos_iff : 0 < -a ↔ a < 0 := by
  rw [Lawful.lt_iff, Lawful.lt_iff, neg_nonneg_iff, neg_nonpos_iff]

theorem not_isNaN_zero : ¬IsNaN (0 : α) :=
  not_not_intro (Lawful.le_trans Lawful.neg_zero.2 Lawful.neg_zero.1)

/-- A finite number is on one side of zero, or on both if it has the size of zero. -/
theorem nonneg_or_nonpos (h : IsFinite a) : 0 ≤ a ∨ a ≤ 0 :=
  Lawful.le_total not_isNaN_zero (Lawful.not_isNaN_of_isFinite h)

/-- The magnitude has the size of the value or of its negation, whichever is not negative. -/
theorem abs_cases (h : ¬IsNaN a) : 0 ≤ a ∧ Agree (abs a) a ∨ a ≤ 0 ∧ Agree (abs a) (-a) := by
  rcases Lawful.le_total not_isNaN_zero h with h | h
  · exact .inl ⟨h, Lawful.abs_of_nonneg h⟩
  · exact .inr ⟨h, Lawful.abs_of_nonpos h⟩

/-- The magnitude depends on the size only. -/
theorem Agree.abs (h : Agree a b) : Agree (abs a) (abs b) := by
  have hzero : Agree (0 : α) 0 := agree_self not_isNaN_zero
  rcases abs_cases h.not_isNaN.1 with ⟨hsign, ha⟩ | ⟨hsign, ha⟩
  · exact ha.trans (h.trans (Lawful.abs_of_nonneg ((hzero.le_iff h).mp hsign)).symm)
  · exact ha.trans (h.neg.trans (Lawful.abs_of_nonpos ((h.le_iff hzero).mp hsign)).symm)

/-- A number is within a distance of zero, seen from both sides. -/
theorem abs_le_iff (h : ¬IsNaN a) : Scalar.abs a ≤ b ↔ a ≤ b ∧ -b ≤ a := by
  have hneg : -a ≤ b ↔ -b ≤ a := by
    rw [← neg_le_neg_iff, Lawful.neg_neg]
  rcases abs_cases h with ⟨hsign, ha⟩ | ⟨hsign, ha⟩
  · constructor
    · intro hle
      have hle := Lawful.le_trans ha.2 hle
      exact ⟨hle, Lawful.le_trans (neg_nonpos_iff.mpr (Lawful.le_trans hsign hle)) hsign⟩
    · exact fun hle ↦ Lawful.le_trans ha.1 hle.1
  · constructor
    · intro hle
      have hle := Lawful.le_trans ha.2 hle
      have hnonneg := Lawful.le_trans (neg_nonneg_iff.mpr hsign) hle
      exact ⟨Lawful.le_trans hsign hnonneg, hneg.mp hle⟩
    · exact fun hle ↦ Lawful.le_trans ha.1 (hneg.mpr hle.2)

theorem not_isNaN_zeroTolerance : ¬IsNaN (zeroTolerance : α) :=
  (Lawful.not_isNaN_of_le (le_of_lt Lawful.zeroTolerance_pos)).2

theorem neg_zeroTolerance_neg : -zeroTolerance < (0 : α) := by
  rw [← neg_pos_iff, Lawful.neg_neg]
  exact Lawful.zeroTolerance_pos

/-- The distance of a finite number from itself is within the tolerance. -/
theorem abs_sub_self_le (h : IsFinite a) : abs (a - a) ≤ zeroTolerance := by
  obtain ⟨hle, hge⟩ := Lawful.sub_self h
  exact Lawful.le_trans (Lawful.abs_of_nonneg hge).1
    (Lawful.le_trans hle (le_of_lt Lawful.zeroTolerance_pos))

/-! ## Extremes -/

theorem minNum_le (ha : ¬IsNaN a) (hb : ¬IsNaN b) : minNum a b ≤ a ∧ minNum a b ≤ b := by
  rw [minNum]
  by_cases h : b < a
  · rw [if_pos h]
    exact ⟨le_of_lt h, not_not.mp hb⟩
  · rw [if_neg h, if_neg ha]
    exact ⟨not_not.mp ha, le_of_not_lt hb ha h⟩

theorem le_maxNum (ha : ¬IsNaN a) (hb : ¬IsNaN b) : a ≤ maxNum a b ∧ b ≤ maxNum a b := by
  rw [maxNum]
  by_cases h : a < b
  · rw [if_pos h]
    exact ⟨le_of_lt h, not_not.mp hb⟩
  · rw [if_neg h, if_neg ha]
    exact ⟨not_not.mp ha, le_of_not_lt ha hb h⟩

/-- The extremes are in order, unless neither value is a number. -/
theorem minNum_le_maxNum (h : ¬IsNaN (minNum a b)) : minNum a b ≤ maxNum a b := by
  by_cases ha : IsNaN a
  · have hb : ¬b < a := fun hlt ↦ (Lawful.not_isNaN_of_le (le_of_lt hlt)).2 ha
    have hb' : ¬a < b := fun hlt ↦ (Lawful.not_isNaN_of_le (le_of_lt hlt)).1 ha
    rw [minNum, if_neg hb, if_pos ha] at h ⊢
    rw [maxNum, if_neg hb', if_pos ha]
    exact not_not.mp h
  by_cases hb : IsNaN b
  · have hb' : ¬b < a := fun hlt ↦ (Lawful.not_isNaN_of_le (le_of_lt hlt)).1 hb
    have hb'' : ¬a < b := fun hlt ↦ (Lawful.not_isNaN_of_le (le_of_lt hlt)).2 hb
    rw [minNum, if_neg hb', if_neg ha, maxNum, if_neg hb'', if_neg ha]
    exact not_not.mp ha
  · exact Lawful.le_trans (minNum_le ha hb).1 (le_maxNum ha hb).1

/-! ## Values between two others -/

/-- The value lies between two others, whichever of them is the lesser one. -/
def LiesBetween (a b t : α) : Prop := a ≤ t ∧ t ≤ b ∨ b ≤ t ∧ t ≤ a

namespace LiesBetween

variable {a b c t : α}

omit [Lawful α] in
theorem symm (h : LiesBetween a b t) : LiesBetween b a t := Or.symm h

omit [Lawful α] in
theorem self (h : ¬IsNaN a) : LiesBetween a a a := .inl ⟨not_not.mp h, not_not.mp h⟩

theorem le (h : LiesBetween a b t) (ha : a ≤ c) (hb : b ≤ c) : t ≤ c := by
  rcases h with ⟨-, h⟩ | ⟨-, h⟩
  · exact Lawful.le_trans h hb
  · exact Lawful.le_trans h ha

theorem ge (h : LiesBetween a b t) (ha : c ≤ a) (hb : c ≤ b) : c ≤ t := by
  rcases h with ⟨h, -⟩ | ⟨h, -⟩
  · exact Lawful.le_trans ha h
  · exact Lawful.le_trans hb h

theorem not_isNaN (h : LiesBetween a b t) : ¬IsNaN a ∧ ¬IsNaN b := by
  rcases h with ⟨ha, hb⟩ | ⟨hb, ha⟩
  · exact ⟨(Lawful.not_isNaN_of_le ha).1, (Lawful.not_isNaN_of_le hb).2⟩
  · exact ⟨(Lawful.not_isNaN_of_le ha).2, (Lawful.not_isNaN_of_le hb).1⟩

theorem minNum_le (h : LiesBetween a b t) : minNum a b ≤ t := by
  have hle := Scalar.minNum_le h.not_isNaN.1 h.not_isNaN.2
  exact h.ge hle.1 hle.2

theorem le_maxNum (h : LiesBetween a b t) : t ≤ maxNum a b := by
  have hle := Scalar.le_maxNum h.not_isNaN.1 h.not_isNaN.2
  exact h.le hle.1 hle.2

theorem neg (h : LiesBetween a b t) : LiesBetween (-a) (-b) (-t) := by
  rcases h with ⟨ha, hb⟩ | ⟨hb, ha⟩
  · exact .inr ⟨Lawful.neg_le_neg hb, Lawful.neg_le_neg ha⟩
  · exact .inl ⟨Lawful.neg_le_neg ha, Lawful.neg_le_neg hb⟩

/-- Only the sizes of the numbers count. -/
theorem congr {a' b' t' : α} (h : LiesBetween a b t) (ha : Agree a a') (hb : Agree b b')
    (ht : Agree t t') : LiesBetween a' b' t' := by
  rcases h with ⟨hat, htb⟩ | ⟨hbt, hta⟩
  · exact .inl ⟨Lawful.le_trans ha.2 (Lawful.le_trans hat ht.1),
      Lawful.le_trans ht.2 (Lawful.le_trans htb hb.1)⟩
  · exact .inr ⟨Lawful.le_trans hb.2 (Lawful.le_trans hbt ht.1),
      Lawful.le_trans ht.2 (Lawful.le_trans hta ha.1)⟩

end LiesBetween

end Scalar

end ImplicitPlot
