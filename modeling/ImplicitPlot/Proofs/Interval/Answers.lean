import ImplicitPlot.Machine.Instruction
import ImplicitPlot.Proofs.Scalar.Laws

/-!
# What operations on intervals answer

Every operation on intervals ends in one of three ways (`Interval.Answer`): two computed bounds are
put together and checked, or there are no values since something is not a number, or the operation
has an arithmetic fault. A magnitude may also be its operand itself. What all operations have in
common follows from that: which faults they have, and that their results are valid.
-/

namespace ImplicitPlot

variable {α : Type} [Scalar α]

open Scalar

namespace Interval

/-- The ways in which an operation ends. -/
inductive Answer : Except (Fault α) (Interval α) → Prop
  | checked (lower upper : α) : Answer (checked lower upper)
  /-- Something is not a number. -/
  | undefined {v : α} (hv : IsNaN v) : Answer (.ok undefined)
  | fault {f : Fault α} (hf : f.isArithmetic) : Answer (.error f)

theorem answer_undefined_of_hasNaN {a : Interval α} (h : a.HasNaN) :
    Answer (.ok undefined : Except (Fault α) (Interval α)) := by
  rcases h with h | h
  · exact .undefined h
  · exact .undefined h

theorem answer_ofBounds (lower upper : α) : Answer (ofBounds lower upper) := by
  rw [ofBounds]
  split
  next h => exact answer_undefined_of_hasNaN (a := ⟨lower, upper⟩) h
  next => exact .checked lower upper

theorem answer_overCorners (f : α → α → α) (a b : Interval α) : Answer (overCorners f a b) := by
  rw [overCorners]
  split
  next h =>
    rcases h with h | h | h | h
    · exact .undefined h
    · exact .undefined h
    · exact .undefined h
    · exact .undefined h
  next => exact .checked _ _

theorem answer_abs_or (a : Interval α) : Answer a.abs ∨ a.abs = .ok a := by
  rw [abs]
  split
  · split
    · exact .inl (.checked _ _)
    · exact .inl (.checked _ _)
  · exact .inr rfl

/-- Operands that are not numbers leave no values; otherwise the operation is carried out. -/
theorem answer_ite_hasNaN {a b : Interval α} {x : Except (Fault α) (Interval α)} (h : Answer x) :
    Answer (if a.HasNaN ∨ b.HasNaN then .ok .undefined else x) := by
  split
  next hnan =>
    rcases hnan with hnan | hnan
    · exact answer_undefined_of_hasNaN hnan
    · exact answer_undefined_of_hasNaN hnan
  next => exact h

theorem answer_mul (a b : Interval α) : Answer (a.mul b) :=
  answer_ite_hasNaN (answer_overCorners _ a b)

theorem answer_div (a b : Interval α) : Answer (a.div b) := by
  rw [div]
  split
  · exact .fault rfl
  · exact answer_ite_hasNaN (answer_overCorners _ a b)

private theorem answer_powStraddling (a e : Interval α) : Answer (a.powStraddling e) := by
  rw [powStraddling]
  split
  · split
    · exact answer_ofBounds _ _
    · exact answer_ofBounds _ _
  · exact answer_ofBounds _ _

private theorem answer_powNonpositive (a e : Interval α) : Answer (a.powNonpositive e) := by
  rw [powNonpositive]
  split
  · exact .fault rfl
  · exact answer_ofBounds _ _

private theorem answer_pow (a e : Interval α) : Answer (a.pow e) := by
  rw [pow]
  refine answer_ite_hasNaN ?_
  split
  · exact .fault rfl
  split
  · exact answer_powStraddling a e
  split
  · exact answer_overCorners _ a e
  · exact answer_powNonpositive a e

/-! ## Validity -/

@[simp] theorem valid_point (v : α) : (point v).Valid := by
  by_cases h : v ≤ v
  · exact .inl h
  · exact .inr ⟨h, h⟩

private theorem valid_of_checked {lower upper : α} {r : Interval α}
    (h : checked lower upper = .ok r) :
    r.Valid := by
  rw [checked] at h
  split at h
  next hvalid =>
    cases h
    exact hvalid
  next => cases h

theorem Answer.valid [Lawful α] {x : Except (Fault α) (Interval α)} {r : Interval α}
    (h : Answer x) (hx : x = .ok r) : r.Valid := by
  cases h with
  | checked lower upper => exact valid_of_checked hx
  | undefined hv =>
    cases hx
    exact .inr ⟨Lawful.isNaN_nan hv, Lawful.isNaN_nan hv⟩
  | fault hf => cases hx

end Interval

section Operations

variable {a b r : Interval α}

theorem UnaryOp.answer_or (op : UnaryOp) (a : Interval α) :
    Interval.Answer (op.onInterval a) ∨ op.onInterval a = .ok a := by
  cases op with
  | neg => exact .inl (Interval.answer_ofBounds _ _)
  | abs => exact Interval.answer_abs_or a

theorem BinaryOp.answer (op : BinaryOp) (a b : Interval α) :
    Interval.Answer (op.onIntervals a b) := by
  cases op with
  | add => exact Interval.answer_ofBounds _ _
  | sub => exact Interval.answer_ofBounds _ _
  | mul => exact Interval.answer_mul a b
  | div => exact Interval.answer_div a b
  | pow => exact Interval.answer_pow a b

variable [Lawful α]

/-- An operation on a valid interval gives a valid one. -/
theorem UnaryOp.valid_of_onInterval {op : UnaryOp} (ha : a.Valid) (h : op.onInterval a = .ok r) :
    r.Valid := by
  rcases op.answer_or a with hanswer | hself
  · exact hanswer.valid h
  · rw [hself] at h
    cases h
    exact ha

theorem BinaryOp.valid_of_onIntervals {op : BinaryOp} (h : op.onIntervals a b = .ok r) :
    r.Valid :=
  (op.answer a b).valid h

end Operations

end ImplicitPlot
