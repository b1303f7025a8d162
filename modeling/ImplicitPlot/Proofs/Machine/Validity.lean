import ImplicitPlot.Proofs.Interval.Validity
import ImplicitPlot.Proofs.Machine.Height
import ImplicitPlot.Proofs.Scalar.UnitPower

/-!
# Runs keep intervals valid

All that a run reads are the intervals of the variables and those on the stack. If they are valid,
they stay so (`Context.Proper`): every step leaves valid intervals, also one that faults half-way
through, and no step computes bounds that are refused. This is stated once for evaluations of any
kind, `Evaluation.Keeps`, and passed on from the actions on the stack to instructions, and from
instructions to runs.
-/

namespace ImplicitPlot

variable {α : Type}

theorem Fault.IsInternal.ne_invalidBounds {f : Fault α} (h : f.IsInternal) (lower upper : α) :
    f ≠ .invalidBounds lower upper := by
  rintro rfl
  exact h

variable [Scalar α]

open Scalar

/-- All intervals that a run may read are valid. -/
structure Context.Proper (c : Context α) : Prop where
  bindings : ∀ v, (c.lookup v).Valid
  stack : ∀ a ∈ c.stack.toList, a.Valid

theorem Context.proper_reset {c : Context α} (h : ∀ v, (c.lookup v).Valid) (n : Nat) :
    (c.reset n).Proper := by
  have hnil : (c.reset n).stack.toList = [] := Stack.toList_reset _ _ _
  refine ⟨h, ?_⟩
  rw [hnil]
  exact fun a ha ↦ absurd ha List.not_mem_nil

namespace Evaluation

variable {β γ : Type} {P : β → Prop} {Q : γ → Prop} {a : Interval α} {c : Context α}

/-- Where all intervals are valid, the evaluation leaves them valid, and what it returns is as
stated, unless there is a fault, which never is that bounds were refused. -/
def Keeps (x : Evaluation α β) (P : β → Prop) : Prop :=
  ∀ c : Context α, c.Proper → match x c with
    | .ok b c' => c'.Proper ∧ P b
    | .error f c' => c'.Proper ∧ ∀ lower upper, f ≠ .invalidBounds lower upper

/-! ## Actions -/

private theorem keeps_pure {b : β} (h : P b) : (pure b : Evaluation α β).Keeps P :=
  fun _ hc ↦ ⟨hc, h⟩

/-- What the first part returns is passed on to the second part. -/
theorem Keeps.bind {x : Evaluation α β} {k : β → Evaluation α γ} (hx : x.Keeps P)
    (hk : ∀ b, P b → (k b).Keeps Q) : (x >>= k).Keeps Q := by
  intro c hc
  have hx := hx c hc
  cases hr : x c with
  | ok b c' =>
    rw [hr] at hx
    rw [bind_ok hr]
    exact hk b hx.2 c' hx.1
  | error f c' =>
    rw [hr] at hx
    rw [bind_error hr]
    exact hx

theorem keeps_push (ha : a.Valid) : (push a).Keeps fun _ ↦ True := by
  intro c hc
  rw [push]
  by_cases h : c.stack.height < c.stack.capacity
  · rw [dif_pos h]
    refine ⟨⟨hc.bindings, ?_⟩, trivial⟩
    rw [Stack.toList_push]
    exact List.forall_mem_cons.mpr ⟨ha, hc.stack⟩
  · rw [dif_neg h]
    exact ⟨hc, Fault.IsInternal.ne_invalidBounds trivial⟩

theorem keeps_pop : (pop : Evaluation α _).Keeps Interval.Valid := by
  intro c hc
  rw [pop]
  by_cases h : 0 < c.stack.height
  · have hstack := hc.stack
    rw [Stack.toList_eq_top_cons _ h] at hstack
    obtain ⟨htop, hrest⟩ := List.forall_mem_cons.mp hstack
    rw [dif_pos h]
    exact ⟨⟨hc.bindings, hrest⟩, htop⟩
  · rw [dif_neg h]
    exact ⟨hc, Fault.IsInternal.ne_invalidBounds trivial⟩

private theorem keeps_top : (top : Evaluation α _).Keeps Interval.Valid := by
  intro c hc
  rw [top]
  by_cases h : 0 < c.stack.height
  · have hstack := hc.stack
    rw [Stack.toList_eq_top_cons _ h] at hstack
    rw [dif_pos h]
    exact ⟨hc, (List.forall_mem_cons.mp hstack).1⟩
  · rw [dif_neg h]
    exact ⟨hc, Fault.IsInternal.ne_invalidBounds trivial⟩

private theorem keeps_swap : (swap : Evaluation α _).Keeps fun _ ↦ True := by
  intro c hc
  rw [swap]
  by_cases h : 2 ≤ c.stack.height
  · rw [dif_pos h]
    refine ⟨⟨hc.bindings, ?_⟩, trivial⟩
    have hstack := hc.stack
    rw [← Stack.length_toList] at h
    rcases hs : c.stack.toList with - | ⟨b, - | ⟨a, s⟩⟩
    · rw [hs, List.length_nil] at h
      omega
    · rw [hs, List.length_singleton] at h
      omega
    · rw [Stack.toList_swap _ _ hs]
      rw [hs] at hstack
      simp only [List.forall_mem_cons] at hstack ⊢
      exact ⟨hstack.2.1, hstack.1, hstack.2.2⟩
  · rw [dif_neg h]
    exact ⟨hc, Fault.IsInternal.ne_invalidBounds trivial⟩

private theorem keeps_lookup (v : Variable) : (lookup v : Evaluation α _).Keeps Interval.Valid :=
  fun _ hc ↦ ⟨hc, hc.bindings v⟩

theorem keeps_lift {x : Except (Fault α) (Interval α)} (h : Interval.Regular x) :
    (lift x).Keeps Interval.Valid := by
  intro c hc
  cases x with
  | ok r => exact ⟨hc, h⟩
  | error f =>
    refine ⟨hc, ?_⟩
    rintro lower upper rfl
    cases h

/-! ## Instructions and runs -/

section Steps

variable [Lawful α] [OrderedSums α] [SignedPowers α]

private theorem keeps_step (i : Instruction α) : i.step.Keeps fun _ ↦ True := by
  cases i with
  | pushConst k => exact keeps_push (Interval.valid_point k)
  | pushVar v => exact (keeps_lookup v).bind fun a ha ↦ keeps_push ha
  | unary op =>
    refine keeps_pop.bind fun a ha ↦ ?_
    exact (keeps_lift (op.regular_onInterval ha)).bind fun r hr ↦ keeps_push hr
  | binary op =>
    refine keeps_pop.bind fun b hb ↦ keeps_pop.bind fun a ha ↦ ?_
    exact (keeps_lift (op.regular_onIntervals ha hb)).bind fun r hr ↦ keeps_push hr
  | dup => exact keeps_top.bind fun a ha ↦ keeps_push ha
  | swap => exact keeps_swap

/-- A run keeps intervals valid, by induction on the instructions. -/
theorem keeps_steps (is : List (Instruction α)) : (Program.steps is).Keeps fun _ ↦ True := by
  induction is with
  | nil => exact keeps_pure trivial
  | cons i is ih => exact (keeps_step i).bind fun _ _ ↦ ih

end Steps

private theorem keeps_result : (Program.result : Evaluation α _).Keeps Interval.Valid := by
  intro c hc
  rw [Program.result]
  by_cases h : c.stack.height = 1
  · rw [if_pos h]
    exact keeps_pop c hc
  · rw [if_neg h]
    exact ⟨hc, Fault.IsInternal.ne_invalidBounds trivial⟩

/-! ## What is left of a run -/

theorem Keeps.proper_after {x : Evaluation α β} (h : x.Keeps P) (hc : c.Proper) :
    (x.after c).Proper := by
  have hx := h c hc
  rw [after]
  cases hr : x c with
  | ok b c' =>
    rw [hr] at hx
    exact hx.1
  | error f c' =>
    rw [hr] at hx
    exact hx.1

theorem Keeps.value_or_fault {x : Evaluation α β} (h : x.Keeps P) (hc : c.Proper) :
    (∃ b, x.outcome c = .ok b ∧ P b) ∨
      ∃ f, x.outcome c = .error f ∧ ∀ lower upper, f ≠ .invalidBounds lower upper := by
  have hx := h c hc
  rw [outcome]
  cases hr : x c with
  | ok b c' =>
    rw [hr] at hx
    exact .inl ⟨b, rfl, hx.2⟩
  | error f c' =>
    rw [hr] at hx
    exact .inr ⟨f, rfl, hx.2⟩

end Evaluation

namespace Program

variable [Lawful α] [OrderedSums α] [SignedPowers α] {c : Context α}

theorem valid_of_mem_stack (p : Program α) (hc : ∀ v, (c.lookup v).Valid) (n : Nat) :
    ∀ a ∈ ((steps (p.code.take n)).after (c.reset p.stackSize)).stack.toList, a.Valid :=
  ((Evaluation.keeps_steps _).proper_after (Context.proper_reset hc _)).stack

theorem value_or_fault_execute (p : Program α) (hc : ∀ v, (c.lookup v).Valid) :
    (∃ a, p.execute.outcome c = .ok a ∧ a.Valid) ∨
      ∃ f, p.execute.outcome c = .error f ∧ ∀ lower upper, f ≠ .invalidBounds lower upper := by
  have hrun := (Evaluation.keeps_steps p.code).bind fun _ _ ↦ Evaluation.keeps_result
  exact hrun.value_or_fault (Context.proper_reset hc p.stackSize)

/-- **Every run keeps intervals valid**, in binary64 arithmetic with any power of the right sign,
and whatever the instructions are. After each instruction the values on the stack are valid, and the
run ends with a valid interval, or in a fault that is not about refused bounds. -/
theorem runs_keep_intervals_valid (pow : Float → Float → Float)
    (hpow : @SignedPowers Float (Binary64.arithmetic pow)) (p : Program Float) (c : Context Float)
    (hc : ∀ v, (c.lookup v).Valid) :
    letI := Binary64.arithmetic pow
    (∀ n, ∀ a ∈ ((steps (p.code.take n)).after (c.reset p.stackSize)).stack.toList, a.Valid) ∧
      ((∃ a, p.execute.outcome c = .ok a ∧ a.Valid) ∨
        ∃ f, p.execute.outcome c = .error f ∧ ∀ lower upper, f ≠ .invalidBounds lower upper) :=
  letI := Binary64.arithmetic pow
  haveI := Binary64.lawful pow
  haveI := Binary64.orderedSums pow
  ⟨valid_of_mem_stack p hc, value_or_fault_execute p hc⟩

/-- A cube of values on both sides of zero, added to values that reach infinity. -/
def shiftedCube : Program Float :=
  ⟨[.pushVar .x, .pushConst 3, .binary .pow, .pushVar .y, .binary .add], 2⟩

theorem shiftedCube_keeps_intervals_valid :
    letI := Binary64.arithmetic Binary64.unitPower
    letI c := ((Context.new 0).assign .x ⟨-1, 1⟩).assign .y ⟨1, Binary64.infinity⟩
    shiftedCube.execute.outcome c = .ok ⟨0, Binary64.infinity⟩ ∧
      ∀ n, ∀ a ∈ ((steps (shiftedCube.code.take n)).after (c.reset 2)).stack.toList, a.Valid := by
  have hvalid : ∀ i : Fin Variable.count, ((((Context.new 0).assign .x ⟨-1, 1⟩).assign .y
      ⟨1, Binary64.infinity⟩).lookup ⟨i⟩).Valid := by
    decide +kernel
  exact ⟨by decide +kernel, (runs_keep_intervals_valid Binary64.unitPower
    Binary64.signedPowers_unitPower shiftedCube _ fun v ↦ hvalid v.index).1⟩

end Program

end ImplicitPlot
