import ImplicitPlot.Proofs.Interval.Answers
import ImplicitPlot.Proofs.Machine.Values

/-!
# Heights of the stack

What the instructions alone say about the stack. Every instruction needs some operands and changes
the height by its stack effect, whatever the values are, so a list of instructions takes a walk
over heights, `Walk`. A program is well formed when its walk starts at an empty stack, ends with
one value, and stays within the slots that the program asks for.

The walk decides the internal faults: a run along a walk with enough slots ends with as many values
as the walk says, or in a fault of an operation, and those are never internal.
-/

namespace ImplicitPlot

variable {α : Type}

/-- The fault points at a malformed program: it does not arise from an operation on values. -/
def Fault.IsInternal : Fault α → Prop
  | .stackOverflow _ | .stackUnderflow | .badVariable _ | .badResult _ => True
  | .divisionByZero | .nonIntegerExponent | .invalidBounds _ _ => False

/-! ## Faults of operations -/

section Operations

variable [Scalar α] {f : Fault α}

theorem Interval.Answer.not_isInternal {x : Except (Fault α) (Interval α)} (h : Answer x)
    (hx : x = .error f) : ¬f.IsInternal := by
  cases h with
  | checked lower upper =>
    rw [Interval.checked] at hx
    split at hx
    · cases hx
    · cases hx
      exact id
  | undefined hv => cases hx
  | fault hf =>
    cases hx
    cases f with
    | divisionByZero | nonIntegerExponent => exact id
    | stackOverflow | stackUnderflow | badVariable | badResult | invalidBounds => cases hf

theorem UnaryOp.not_isInternal {op : UnaryOp} {a : Interval α} (h : op.onInterval a = .error f) :
    ¬f.IsInternal := by
  rcases op.answer_or a with hanswer | hself
  · exact hanswer.not_isInternal h
  · rw [hself] at h
    cases h

theorem BinaryOp.not_isInternal {op : BinaryOp} {a b : Interval α}
    (h : op.onIntervals a b = .error f) : ¬f.IsInternal :=
  (op.answer a b).not_isInternal h

end Operations

/-! ## Walks over heights -/

/-- The number of values that an instruction takes off the stack or reads. -/
def Instruction.operands : Instruction α → Nat
  | pushConst _ | pushVar _ => 0
  | unary _ | dup => 1
  | binary _ | swap => 2

namespace Instruction

variable (h : Nat)

@[simp] theorem heightAfter_dup : (dup : Instruction α).heightAfter h = h + 1 := rfl

@[simp] theorem heightAfter_binary (op : BinaryOp) :
    (binary op : Instruction α).heightAfter h = h - 1 := by
  simp only [heightAfter, stackEffect]
  omega

theorem le_peak (is : List (Instruction α)) : h ≤ peak h is := by
  cases is with
  | nil => exact Nat.le_refl h
  | cons i is => exact Nat.le_max_left _ _

end Instruction

/-- Down a list of instructions, from one height to another: every instruction finds its operands,
and no instruction leaves more values than the limit. -/
inductive Walk (limit : Nat) : Nat → List (Instruction α) → Nat → Prop
  | done (h : Nat) : Walk limit h [] h
  | step {h h' : Nat} {i : Instruction α} {is : List (Instruction α)}
      (operands : i.operands ≤ h) (room : i.heightAfter h ≤ limit)
      (rest : Walk limit (i.heightAfter h) is h') : Walk limit h (i :: is) h'

namespace Walk

variable {limit limit' h h' h'' : Nat} {i : Instruction α} {is js : List (Instruction α)}

/-- A walk that starts where another one ends continues it. -/
theorem append (hi : Walk limit h is h') (hj : Walk limit h' js h'') :
    Walk limit h (is ++ js) h'' := by
  induction hi with
  | done => exact hj
  | step operands room _ ih => exact .step operands room (ih hj)

theorem unary (op : UnaryOp) (hpos : 0 < h) (hle : h ≤ limit) :
    Walk limit h [(.unary op : Instruction α)] h :=
  .step hpos hle (.done h)

theorem binary (op : BinaryOp) (hle : h < limit) :
    Walk limit (h + 2) [(.binary op : Instruction α)] (h + 1) := by
  have hafter : (Instruction.binary op : Instruction α).heightAfter (h + 2) = h + 1 :=
    Instruction.heightAfter_binary _ _
  refine .step (Nat.le_add_left 2 h) ?_ ?_
  · rw [hafter]
    exact hle
  · rw [hafter]
    exact .done _

theorem dup (hpos : 0 < h) (hle : h < limit) :
    Walk limit h [(.dup : Instruction α)] (h + 1) :=
  .step hpos hle (.done _)

theorem swap (htwo : 2 ≤ h) (hle : h ≤ limit) : Walk limit h [(.swap : Instruction α)] h :=
  .step htwo hle (.done h)

theorem optional (p : Prop) [Decidable p] (hw : Walk limit h is h) :
    Walk limit h (if p then is else []) h := by
  split
  · exact hw
  · exact .done h

theorem mono (hw : Walk limit h is h') (hle : limit ≤ limit') : Walk limit' h is h' := by
  induction hw with
  | done => exact .done _
  | step operands room _ ih => exact .step operands (Nat.le_trans room hle) ih

/-- A walk may stop after any number of steps. -/
theorem take (hw : Walk limit h is h') (n : Nat) : ∃ h'', Walk limit h (is.take n) h'' := by
  induction hw generalizing n with
  | done h => exact ⟨h, by rw [List.take_nil]; exact .done h⟩
  | @step h _ i _ operands room _ ih =>
    cases n with
    | zero => exact ⟨h, .done h⟩
    | succ n =>
      obtain ⟨h'', hrest⟩ := ih n
      exact ⟨h'', .step operands room hrest⟩

theorem peak_le (hw : Walk limit h is h') (hle : h ≤ limit) : Instruction.peak h is ≤ limit := by
  induction hw with
  | done => exact hle
  | step _ room _ ih => exact Nat.max_le.mpr ⟨hle, ih room⟩

theorem within_peak (hw : Walk limit h is h') : Walk (Instruction.peak h is) h is h' := by
  induction hw with
  | done => exact .done _
  | @step h h' i is operands room rest ih =>
    -- The rest of the walk has a limit of its own, which the height before the step can only raise.
    have hpeak : i.heightAfter h ≤ Instruction.peak (i.heightAfter h) is :=
      Instruction.le_peak _ _
    exact .step operands (Nat.le_trans hpeak (Nat.le_max_right _ _))
      (ih.mono (Nat.le_max_right _ _))

theorem replicate_dup (n : Nat) (hpos : 0 < h) (hle : h + n ≤ limit) :
    Walk limit h (List.replicate n (.dup : Instruction α)) (h + n) := by
  induction n generalizing h with
  | zero => exact .done h
  | succ n ih =>
    have hrest : Walk limit (h + 1) (List.replicate n (.dup : Instruction α)) (h + 1 + n) :=
      ih (by omega) (by omega)
    rw [Nat.add_right_comm] at hrest
    exact .step hpos (by simp only [Instruction.heightAfter_dup]; omega) hrest

theorem replicate_binary (op : BinaryOp) (n : Nat) (hpos : 0 < h) (hle : h + n ≤ limit + 1) :
    Walk limit (h + n) (List.replicate n (.binary op : Instruction α)) h := by
  induction n with
  | zero => exact .done h
  | succ n ih =>
    refine .step ?_ ?_ ?_
    · simp only [Instruction.operands]
      omega
    · rw [Instruction.heightAfter_binary]
      omega
    · rw [Instruction.heightAfter_binary]
      exact ih (by omega)

end Walk

/-! ## Runs along a walk -/

/-- The program has the operands and the slots for all its instructions, and leaves one value. -/
def Program.WellFormed (p : Program α) : Prop := Walk p.stackSize 0 p.code 1

section Runs

variable {vars : Variable → Interval α} {limit capacity : Nat} {s : List (Interval α)}

/-- The outcome is as many values as expected, or else a fault that is not internal. -/
def Leaves (h : Nat) : Except (Fault α) (List (Interval α)) → Prop
  | .ok s => s.length = h
  | .error f => ¬f.IsInternal

theorem leaves_pushValue {a : Interval α} (h : s.length < capacity) :
    Leaves (s.length + 1) (pushValue capacity a s) := by
  rw [pushValue, if_pos h]
  exact List.length_cons

theorem leaves_cons {r : Except (Fault α) (Interval α)}
    (hf : ∀ f, r = .error f → ¬f.IsInternal) :
    Leaves (s.length + 1) (do return (← r) :: s) := by
  cases r with
  | ok a => exact List.length_cons
  | error f => exact hf f rfl

theorem pushValue_eq_of_room {capacity' : Nat} {a : Interval α} (h : s.length < capacity)
    (h' : s.length < capacity') : pushValue capacity a s = pushValue capacity' a s := by
  rw [pushValue, pushValue, if_pos h, if_pos h']

variable [Scalar α]

/-- An instruction that finds its operands and room for its result changes the number of values by
its stack effect. -/
theorem Instruction.leaves_onValues (i : Instruction α) (operands : i.operands ≤ s.length)
    (room : i.heightAfter s.length ≤ capacity) :
    Leaves (i.heightAfter s.length) (i.onValues vars capacity s) := by
  match i, s, operands, room with
  | pushConst c, s, _, room => exact leaves_pushValue room
  | pushVar v, s, _, room => exact leaves_pushValue room
  | unary op, a :: s, _, _ => exact leaves_cons fun f hf ↦ UnaryOp.not_isInternal hf
  | binary op, b :: a :: s, _, _ =>
    rw [heightAfter_binary, List.length_cons, Nat.add_sub_cancel, List.length_cons]
    exact leaves_cons fun f hf ↦ BinaryOp.not_isInternal hf
  | dup, a :: s, _, room => exact leaves_pushValue room
  | swap, b :: a :: s, _, _ => exact (rfl : (a :: b :: s).length = (b :: a :: s).length)

/-- **A walk is taken by every run.** By induction on the walk: with the slots of its limit, no
instruction lacks operands or room. -/
theorem Walk.leaves_runValues {h h' : Nat} {is : List (Instruction α)} (hw : Walk limit h is h')
    (hle : limit ≤ capacity) (hs : s.length = h) :
    Leaves h' (Program.runValues vars capacity is s) := by
  induction hw generalizing s with
  | done => exact hs
  | @step h h' i is operands room _ ih =>
    subst hs
    have hi : Leaves _ (i.onValues vars capacity s) :=
      i.leaves_onValues operands (Nat.le_trans room hle)
    rw [Program.runValues]
    cases hr : i.onValues vars capacity s with
    | ok s' =>
      rw [hr] at hi
      exact ih hi
    | error f =>
      rw [hr] at hi
      exact hi

theorem Instruction.onValues_eq_of_room {capacity' : Nat} (i : Instruction α)
    (room : i.heightAfter s.length ≤ capacity) (room' : i.heightAfter s.length ≤ capacity') :
    i.onValues vars capacity s = i.onValues vars capacity' s := by
  match i, s with
  | pushConst _, _ | pushVar _, _ => exact pushValue_eq_of_room room room'
  | dup, _ :: _ => exact pushValue_eq_of_room room room'
  | dup, [] | unary _, [] | unary _, _ :: _ | swap, [] | swap, [_] | swap, _ :: _ :: _ => rfl
  | binary _, [] | binary _, [_] | binary _, _ :: _ :: _ => rfl

/-- **Spare slots make no difference.** By induction on the walk: two capacities within which the
walk stays let every instruction do the same. -/
theorem Walk.runValues_eq {capacity' h h' : Nat} {is : List (Instruction α)}
    (hw : Walk limit h is h') (hle : limit ≤ capacity) (hle' : limit ≤ capacity')
    (hs : s.length = h) :
    Program.runValues vars capacity is s = Program.runValues vars capacity' is s := by
  induction hw generalizing s with
  | done => rfl
  | @step h h' i is operands room _ ih =>
    subst hs
    have hi : Leaves _ (i.onValues vars capacity s) :=
      i.leaves_onValues operands (Nat.le_trans room hle)
    rw [Program.runValues, Program.runValues,
      ← i.onValues_eq_of_room (Nat.le_trans room hle) (Nat.le_trans room hle')]
    cases hr : i.onValues vars capacity s with
    | error f => rfl
    | ok s' =>
      rw [hr] at hi
      exact ih hi

/-- A well-formed program never ends in an internal fault: it finds its operands and its slots in
every context, and the one value that it has to leave. -/
theorem Program.WellFormed.not_isInternal {p : Program α} (hp : p.WellFormed) (c : Context α)
    {f : Fault α} (hf : p.execute.outcome c = .error f) : ¬f.IsInternal := by
  have hrun : Leaves 1 (runValues c.lookup (max c.capacity p.stackSize) p.code []) :=
    Walk.leaves_runValues hp (Nat.le_max_right _ _) rfl
  rw [outcome_execute] at hf
  cases hr : runValues c.lookup (max c.capacity p.stackSize) p.code [] with
  | ok s =>
    rw [hr] at hrun hf
    obtain ⟨a, rfl⟩ := List.length_eq_one_iff.mp hrun
    cases hf
  | error g =>
    rw [hr] at hrun hf
    cases hf
    exact hrun

end Runs

end ImplicitPlot
