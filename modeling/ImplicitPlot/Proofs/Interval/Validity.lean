import ImplicitPlot.Proofs.Interval.Inclusion

/-!
# Computed bounds are never refused

An operation puts its bounds together with `checked`, which refuses bounds out of order, and bounds
of which one alone is not a number. On valid operands this never happens, infinite bounds included:
the operation gives a valid interval or has an arithmetic fault (`Interval.Regular`).

Most bounds are in order by the laws of the order alone. Sums and differences need that addition
follows the order, and the powers of a base on both sides of zero that a power has the right sign
there. All other powers are put in order by taking extremes.
-/

namespace ImplicitPlot

variable {α : Type} [Scalar α]

open Scalar

namespace Interval

/-- The result is a valid interval, or the fault is an arithmetic one: no bounds were refused. -/
def Regular : Except (Fault α) (Interval α) → Prop
  | .ok r => r.Valid
  | .error f => f.isArithmetic

section Lawful

variable [Lawful α] {a b e : Interval α} {k : α} {x : Except (Fault α) (Interval α)}

/-- What is left to show of an operation is that it succeeds. -/
theorem Answer.regular (h : Answer x) (hx : ∃ r, x = .ok r) : Regular x := by
  obtain ⟨r, hr⟩ := hx
  have hvalid := h.valid hr
  rwa [hr]

theorem regular_ofBounds {lower upper : α} (h : ¬IsNaN lower → ¬IsNaN upper → lower ≤ upper) :
    Regular (ofBounds lower upper) :=
  (answer_ofBounds lower upper).regular (exists_ofBounds h)

private theorem regular_overCorners (f : α → α → α) (a b : Interval α) :
    Regular (overCorners f a b) :=
  (answer_overCorners f a b).regular (exists_overCorners f a b)

private theorem regular_ite_hasNaN (h : ¬a.HasNaN → ¬b.HasNaN → Regular x) :
    Regular (if a.HasNaN ∨ b.HasNaN then .ok undefined else x) := by
  split
  next hnan =>
    rcases hnan with hnan | hnan
    · exact (answer_undefined_of_hasNaN hnan).regular ⟨_, rfl⟩
    · exact (answer_undefined_of_hasNaN hnan).regular ⟨_, rfl⟩
  next hnan =>
    obtain ⟨ha, hb⟩ := not_or.mp hnan
    exact h ha hb

private theorem regular_abs (ha : a.Valid) : Regular a.abs := by
  rcases answer_abs_or a with h | h
  · exact h.regular (exists_abs ha)
  · rw [h]
    exact ha

private theorem regular_div (a b : Interval α) : Regular (a.div b) := by
  by_cases h : b.IsZero
  · rw [div, if_pos h]
    exact rfl
  · exact (answer_div a b).regular (exists_div h)

/-! ## Sums and differences -/

section Sums

variable [OrderedSums α]

/-- A sum of bounds that is a number has terms that are, so the bounds of the operands are in
order. -/
theorem regular_add (ha : a.Valid) (hb : b.Valid) : Regular (a.add b) := by
  refine regular_ofBounds fun hlower hupper ↦ ?_
  obtain ⟨hal, hbl⟩ := OrderedSums.not_isNaN_of_add hlower
  exact OrderedSums.add_le_add (ha.lower_le_upper_of (.inl hal)) (hb.lower_le_upper_of (.inl hbl))
    hlower hupper

private theorem regular_sub (ha : a.Valid) (hb : b.Valid) : Regular (a.sub b) := by
  refine regular_ofBounds fun hlower hupper ↦ ?_
  obtain ⟨hal, hbu⟩ := OrderedSums.not_isNaN_of_sub hlower
  exact OrderedSums.sub_le_sub (ha.lower_le_upper_of (.inl hal)) (hb.lower_le_upper_of (.inr hbu))
    hlower hupper

end Sums

/-! ## Powers -/

omit [Lawful α] in
/-- The integer is the one that the lower bound is close to. -/
theorem eq_round_of_asInteger? (h : e.asInteger? = some k) :
    k = round e.lower ∧ Scalar.abs (e.lower - round e.lower) ≤ zeroTolerance := by
  rw [asInteger?] at h
  split at h
  next hnear =>
    cases h
    exact ⟨rfl, hnear.2.1⟩
  next => cases h

variable [SignedPowers α]

/-- The powers of both bounds are on the side of zero where the bounds are, and the greatest power
of a magnitude is not negative. -/
theorem regular_powStraddling (e : Interval α) (hlower : a.lower < 0) (hupper : 0 < a.upper) :
    Regular (a.powStraddling e) := by
  have hmax : 0 < maxNum a.upper (-a.lower) :=
    maxNum_of (P := fun m ↦ 0 < m) hupper (neg_pos_iff.mpr hlower)
  have hmagnitudes : Regular (ofBounds 0 (maxNum (Scalar.pow (maxNum a.upper (-a.lower)) e.lower)
      (Scalar.pow (maxNum a.upper (-a.lower)) e.upper))) :=
    regular_ofBounds fun _ ↦ maxNum_of (P := fun v ↦ ¬IsNaN v → 0 ≤ v)
      (SignedPowers.pow_nonneg hmax) (SignedPowers.pow_nonneg hmax)
  rw [powStraddling]
  dsimp only
  split
  next k hk =>
    split
    · exact hmagnitudes
    next hodd =>
      obtain ⟨rfl, hnear⟩ := eq_round_of_asInteger? hk
      exact regular_ofBounds fun hl hu ↦
        Lawful.le_trans (SignedPowers.pow_nonpos hlower hnear hodd hl)
          (SignedPowers.pow_nonneg hupper hu)
  next => exact hmagnitudes

omit [SignedPowers α] in
private theorem regular_powNonpositive (a e : Interval α) : Regular (a.powNonpositive e) := by
  rw [powNonpositive]
  split
  · exact rfl
  · exact regular_ofBounds fun hnumber _ ↦ minNum_le_maxNum hnumber

private theorem regular_pow (a e : Interval α) : Regular (a.pow e) := by
  refine regular_ite_hasNaN fun _ _ ↦ ?_
  split
  · exact rfl
  split
  next hboth => exact regular_powStraddling e hboth.1 hboth.2
  split
  · exact regular_overCorners _ a e
  · exact regular_powNonpositive a e

end Lawful

end Interval

variable [Lawful α] {a b : Interval α}

theorem UnaryOp.regular_onInterval (op : UnaryOp) (ha : a.Valid) :
    Interval.Regular (op.onInterval a) := by
  cases op with
  | neg => exact (Interval.answer_ofBounds _ _).regular (Interval.exists_neg ha)
  | abs => exact Interval.regular_abs ha

/-- **No operation refuses the bounds that it computes** from valid operands. -/
theorem BinaryOp.regular_onIntervals [OrderedSums α] [SignedPowers α] (op : BinaryOp)
    (ha : a.Valid) (hb : b.Valid) : Interval.Regular (op.onIntervals a b) := by
  cases op with
  | add => exact Interval.regular_add ha hb
  | sub => exact Interval.regular_sub ha hb
  | mul => exact (Interval.answer_mul a b).regular (Interval.exists_mul a b)
  | div => exact Interval.regular_div a b
  | pow => exact Interval.regular_pow a b

end ImplicitPlot
