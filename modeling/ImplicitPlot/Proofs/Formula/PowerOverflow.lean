import ImplicitPlot.Proofs.Interval.Inclusion
import ImplicitPlot.Proofs.Machine.Compile
import ImplicitPlot.Proofs.Scalar.Product
import ImplicitPlot.Proofs.Sequence

/-!
# Powers that overflow

A small power is compiled to a product of copies of its base. Where the base is finite, a product of
numbers that overflows is an infinity, and an infinity times a bound that is zero is not a number.
So a product loses its result exactly if the base has a bound that is zero and the product of one
factor less has overflowed (`Interval.product_hasNaN_iff`). A power that is computed from the bounds
of its base meets no such product.
-/

namespace ImplicitPlot

open Scalar

namespace Interval

section Lawful

variable {α : Type} [Scalar α] [Lawful α] {a b r : Interval α}

/-- There are no values over the corners exactly if there is none at a corner. -/
theorem hasNaN_overCorners_iff {f : α → α → α} (h : overCorners f a b = .ok r) :
    r.HasNaN ↔ ∃ x y, a.IsBound x ∧ b.IsBound y ∧ IsNaN (f x y) := by
  simp only [overCorners] at h
  split at h
  next hnan =>
    cases h
    have hcorner : ∃ x y, a.IsBound x ∧ b.IsBound y ∧ IsNaN (f x y) := by
      rcases hnan with hp | hq | hs | ht
      · exact ⟨_, _, .inl rfl, .inl rfl, hp⟩
      · exact ⟨_, _, .inl rfl, .inr rfl, hq⟩
      · exact ⟨_, _, .inr rfl, .inl rfl, hs⟩
      · exact ⟨_, _, .inr rfl, .inr rfl, ht⟩
    obtain ⟨x, y, -, -, hxy⟩ := id hcorner
    exact iff_of_true (.inl (Lawful.isNaN_nan hxy)) hcorner
  next hnan =>
    rw [not_or, not_or, not_or] at hnan
    obtain ⟨hp, hq, hs, ht⟩ := hnan
    rw [eq_of_checked h]
    refine iff_of_false ?_ ?_
    · rintro (hlower | hupper)
      · exact not_isNaN_minNum (not_isNaN_minNum (not_isNaN_minNum hp hq) hs) ht hlower
      · exact not_isNaN_maxNum (not_isNaN_maxNum (not_isNaN_maxNum hp hq) hs) ht hupper
    · rintro ⟨x, y, rfl | rfl, rfl | rfl, hxy⟩
      · exact hp hxy
      · exact hq hxy
      · exact hs hxy
      · exact ht hxy

end Lawful

/-- One of the bounds is a zero. -/
def HasZeroBound (a : Interval Float) : Prop := ∃ z, a.IsBound z ∧ Agree z 0

variable {a b p r : Interval Float} {n : Nat}

private theorem not_isBounded_iff : ¬b.IsBounded ↔ ∃ w, b.IsBound w ∧ ¬IsFinite w := by
  constructor
  · intro h
    by_cases hlower : IsFinite b.lower
    · exact ⟨b.upper, .inr rfl, fun hupper ↦ h ⟨hlower, hupper⟩⟩
    · exact ⟨b.lower, .inl rfl, hlower⟩
  · rintro ⟨w, hw, hinfinite⟩ hb
    exact hinfinite (hb.isFinite_of_isBound hw)

/-- A product with a bounded first factor is not a number if the second factor is not, or if it has
overflowed and the first one has a bound that is zero. -/
theorem hasNaN_mul_iff (ha : a.IsBounded) (h : a.mul b = .ok r) :
    r.HasNaN ↔ b.HasNaN ∨ a.HasZeroBound ∧ ¬b.IsBounded := by
  rw [mul] at h
  split at h
  next hnan =>
    cases h
    have hb : b.HasNaN := hnan.resolve_left ha.not_hasNaN
    exact iff_of_true (.inl (hb.elim Lawful.isNaN_nan Lawful.isNaN_nan)) (.inl hb)
  next hnan =>
    obtain ⟨-, hb⟩ := not_or.mp hnan
    have hnumber {y : Float} (hy : b.IsBound y) : ¬IsNaN y := by
      rcases hy with rfl | rfl
      · exact fun hlower ↦ hb (.inl hlower)
      · exact fun hupper ↦ hb (.inr hupper)
    rw [hasNaN_overCorners_iff h, or_iff_right hb, not_isBounded_iff]
    constructor
    · rintro ⟨x, y, hx, hy, hxy⟩
      obtain ⟨hzero, hinfinite⟩ :=
        ((Binary64.isNaN_mul_iff (ha.isFinite_of_isBound hx)).mp hxy).resolve_left (hnumber hy)
      exact ⟨⟨x, hx, hzero⟩, y, hy, hinfinite⟩
    · rintro ⟨⟨x, hx, hzero⟩, y, hy, hinfinite⟩
      exact ⟨x, y, hx, hy,
        (Binary64.isNaN_mul_iff (ha.isFinite_of_isBound hx)).mpr (.inr ⟨hzero, hinfinite⟩)⟩

theorem exists_product (a : Interval Float) (n : Nat) : ∃ r, a.product n = .ok r := by
  induction n with
  | zero => exact ⟨a, rfl⟩
  | succ n ih =>
    obtain ⟨p, hp⟩ := ih
    obtain ⟨r, hr⟩ := exists_mul a p
    exact ⟨r, bind_eq_ok hp hr⟩

private theorem hasZeroBound_of_product (ha : a.IsBounded) (hp : a.product n = .ok p)
    (hnan : p.HasNaN) :
    a.HasZeroBound := by
  induction n generalizing p with
  | zero =>
    cases hp
    exact absurd hnan ha.not_hasNaN
  | succ n ih =>
    obtain ⟨q, hq, hmul⟩ := exists_of_bind_eq_ok hp
    rcases (hasNaN_mul_iff ha hmul).mp hnan with hqnan | ⟨hzero, -⟩
    · exact ih hq hqnan
    · exact hzero

/-- **When a product of copies is not a number**, if the factor is bounded: one factor less has
overflowed, and there is a bound that is zero. -/
theorem hasNaN_product_iff (ha : a.IsBounded) (hp : a.product n = .ok p)
    (hr : a.product (n + 1) = .ok r) : r.HasNaN ↔ a.HasZeroBound ∧ ¬p.IsBounded := by
  have hmul : a.mul p = .ok r := by
    rwa [product, hp] at hr
  rw [hasNaN_mul_iff ha hmul]
  constructor
  · rintro (hnan | h)
    · exact ⟨hasZeroBound_of_product ha hp hnan, fun hbounded ↦ hbounded.not_hasNaN hnan⟩
    · exact h
  · exact .inr

private theorem isBounded_abs (ha : a.IsBounded) (h : a.abs = .ok r) : r.IsBounded := by
  have hzero : IsFinite (0 : Float) := by decide +kernel
  have hneg : IsFinite (-a.lower) := Lawful.isFinite_neg ha.1
  rw [abs] at h
  split at h
  · split at h
    · rw [eq_of_checked h]
      exact ⟨hzero, maxNum_of (P := fun v ↦ IsFinite v) ha.2 hneg⟩
    · rw [eq_of_checked h]
      exact ⟨Lawful.isFinite_neg ha.2, hneg⟩
  · cases h
    exact ha

/-- The factor of a product that computes a power: the base, or its magnitude for an even power. -/
def powerFactor (a : Interval Float) (n : Nat) : Except (Fault Float) (Interval Float) :=
  if n % 2 = 0 then a.abs else .ok a

private theorem exists_powerFactor (ha : a.Valid) (hba : a.IsBounded) (n : Nat) :
    ∃ b, a.powerFactor n = .ok b ∧ b.IsBounded := by
  rw [powerFactor]
  split
  · obtain ⟨b, hb⟩ := exists_abs ha
    exact ⟨b, hb, isBounded_abs hba hb⟩
  · exact ⟨a, rfl, hba⟩

end Interval

namespace Expr

private theorem factors_pos {e : Expr Float} {n : Nat} (h : e.factors? = some n) : 0 < n := by
  rw [factors?, Option.map_eq_some_iff] at h
  obtain ⟨k, hk, rfl⟩ := h
  have hbounds := of_decide_eq_true (Option.filter_eq_some_iff.mp hk).2
  omega

end Expr

/-- **When a compiled power loses its result.** A small power of a formula with a bounded value is
computed without a fault. Its value is not a number exactly if the factor has a bound that is zero
and the product of one factor less overflows, and so never for a square. -/
theorem Program.power_hasNaN_iff (base e : Expr Float) (n : Nat) (hn : e.factors? = some n)
    (c : Context Float) (a : Interval Float) (ha : (compile base).execute.outcome c = .ok a)
    (hvalid : a.Valid) (hbounded : a.IsBounded) :
    ∃ b r, a.powerFactor n = .ok b ∧
      (compile (.binary .pow base e)).execute.outcome c = .ok r ∧
      (r.HasNaN ↔ b.HasZeroBound ∧ ∃ m p, m + 2 = n ∧ b.product m = .ok p ∧ ¬p.IsBounded) := by
  obtain ⟨b, hb, hbb⟩ := Interval.exists_powerFactor hvalid hbounded n
  obtain ⟨r, hr⟩ := b.exists_product (n - 1)
  rw [outcome_compile Binary64.add_comm] at ha
  refine ⟨b, r, hb, ?_, ?_⟩
  · rw [outcome_compile Binary64.add_comm, Expr.onIntervalsShared]
    simp only [hn]
    refine bind_eq_ok ha ?_
    rw [Interval.powerFactor] at hb
    split at hb
    next heven =>
      rw [if_pos heven]
      exact bind_eq_ok hb hr
    next hodd =>
      rw [if_neg hodd]
      exact bind_eq_ok hb hr
  · have hpos := Expr.factors_pos hn
    obtain _ | _ | m := n
    · cases hpos
    · cases hr
      refine iff_of_false hbb.not_hasNaN ?_
      rintro ⟨-, m, p, hm, -⟩
      omega
    · obtain ⟨p, hp⟩ := b.exists_product m
      rw [Interval.hasNaN_product_iff hbb hp hr]
      constructor
      · rintro ⟨hzero, hoverflow⟩
        exact ⟨hzero, m, p, rfl, hp, hoverflow⟩
      · rintro ⟨hzero, m', p', hm, hp', hoverflow⟩
        obtain rfl : m' = m := by omega
        cases hp.symm.trans hp'
        exact ⟨hzero, hoverflow⟩

/-- A base that starts at zero, and whose square overflows. -/
def wideBase : Context Float := (Context.new 0).assign .x ⟨0, 1e200⟩

/-- The cube of such a base is not a number when it is compiled to a product. -/
theorem Program.cube_of_wideBase :
    ∃ r, (compile (.binary .pow (.var .x) (.const 3))).execute.outcome wideBase = .ok r ∧
      r.HasNaN := by
  obtain ⟨b, r, hb, hr, hnan⟩ := power_hasNaN_iff (.var .x) (.const 3) 3 (by decide +kernel)
    wideBase ⟨0, 1e200⟩ (by decide +kernel) (by decide +kernel) (by decide +kernel)
  cases hb
  have hzero : (⟨0, 1e200⟩ : Interval Float).HasZeroBound := ⟨0, .inl rfl, by decide +kernel⟩
  refine ⟨r, hr, hnan.mpr ⟨hzero, 1, ⟨0, Binary64.infinity⟩, rfl, ?_, ?_⟩⟩
  · decide +kernel
  · decide +kernel

/-- The cube of the same base is a number when it is computed from the bounds, if the power of the
bounds is an infinity at worst. -/
theorem Program.cube_of_wideBase_lost :
    (compile (.binary .pow (.var .x) (.const 3))).execute.outcome wideBase
        = .ok Interval.undefined ∧
      (Float.pow 0 3 = 0 → Float.pow 1e200 3 = Binary64.infinity →
        (compileDirect (.binary .pow (.var .x) (.const 3))).execute.outcome wideBase
          = .ok ⟨0, Binary64.infinity⟩) := by
  refine ⟨by decide +kernel, fun hzero hinfinity ↦ ?_⟩
  have hcorners : ∀ f : Float → Float → Float, f 0 3 = 0 → f 1e200 3 = Binary64.infinity →
      Interval.overCorners f ⟨0, 1e200⟩ (.point 3) = .ok ⟨0, Binary64.infinity⟩ := by
    intro f hzero hinfinity
    simp only [Interval.overCorners, Interval.point, hzero, hinfinity]
    decide +kernel
  have hvalue : ∀ vars, (Expr.binary .pow (.var .x) (.const 3)).onIntervals vars
      = (vars .x).pow (.point (3 : Float)) := fun _ ↦ rfl
  have hbase : wideBase.lookup .x = ⟨0, 1e200⟩ := by decide +kernel
  rw [outcome_compileDirect, hvalue, hbase, Interval.pow, if_neg (by decide +kernel),
    if_neg (by decide +kernel), if_neg (by decide +kernel), if_pos (by decide +kernel)]
  exact hcorners _ hzero hinfinity

end ImplicitPlot
