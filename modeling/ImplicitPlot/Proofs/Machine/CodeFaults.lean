import ImplicitPlot.Proofs.Machine.Validity
import ImplicitPlot.Proofs.Sequence

/-!
# Internal faults are decided by the code

Whether a run lacks operands or slots, and at which instruction, can be told from the instructions
and the number of slots alone, without looking at any value. `Instruction.forecast` does so: it
counts the values on the stack, from instruction to instruction. A run ends as its forecast says,
unless an operation has a fault before (`Program.runValues_forecast`). With valid bindings this is
always an arithmetic fault. So runs of one program that have no arithmetic fault all have the same
internal fault, or none.
-/

namespace ImplicitPlot

variable {α : Type}

/-! ## The forecast -/

/-- What is to be expected of instructions, from a height of the stack on: the first internal fault,
with the number of instructions before it, or the height in the end. -/
def Instruction.forecast (capacity : Nat) : Nat → List (Instruction α) → Except (Nat × Fault α) Nat
  | h, [] => .ok h
  | h, i :: is =>
    if h < i.operands then .error (0, .stackUnderflow)
    else if 0 < i.stackEffect ∧ h = capacity then .error (0, .stackOverflow capacity)
    else match forecast capacity (i.heightAfter h) is with
      | .ok h' => .ok h'
      | .error (n, f) => .error (n + 1, f)

theorem Instruction.heightAfter_le {capacity h : Nat} {i : Instruction α} (hle : h ≤ capacity)
    (hroom : ¬(0 < i.stackEffect ∧ h = capacity)) : i.heightAfter h ≤ capacity := by
  have heffect : i.stackEffect ≤ 1 := by
    cases i with
    | pushConst | pushVar | dup | binary | unary | swap => simp [stackEffect]
  rw [heightAfter]
  omega

theorem Instruction.forecast_eq_error {capacity h n : Nat} {is : List (Instruction α)} {f : Fault α}
    (hf : forecast capacity h is = .error (n, f)) :
    f = .stackUnderflow ∨ f = .stackOverflow capacity := by
  induction is generalizing h n with
  | nil => cases hf
  | cons i is ih =>
    rw [forecast] at hf
    split at hf
    · cases hf
      exact .inl rfl
    split at hf
    · cases hf
      exact .inr rfl
    split at hf
    · cases hf
    next hrest =>
      cases hf
      exact ih hrest

variable [Scalar α] {vars : Variable → Interval α} {capacity : Nat} {s : List (Interval α)}

/-! ## Where a run on values stops -/

section Stops

variable {i : Instruction α} {is : List (Instruction α)} {n : Nat} {f : Fault α}

/-- The instruction after the first `n` ones ends the run, in the given fault. -/
def StopsOn (vars : Variable → Interval α) (capacity : Nat) (is : List (Instruction α))
    (s : List (Interval α)) (n : Nat) (f : Fault α) : Prop :=
  ∃ i s', is[n]? = some i ∧ Program.runValues vars capacity (is.take n) s = .ok s' ∧
    i.onValues vars capacity s' = .error f

theorem stopsOn_cons_zero (h : i.onValues vars capacity s = .error f) :
    StopsOn vars capacity (i :: is) s 0 f :=
  ⟨i, s, rfl, rfl, h⟩

theorem StopsOn.cons {s' : List (Interval α)} (hi : i.onValues vars capacity s = .ok s')
    (h : StopsOn vars capacity is s' n f) : StopsOn vars capacity (i :: is) s (n + 1) f := by
  obtain ⟨j, t, hj, hrun, hstop⟩ := h
  refine ⟨j, t, hj, ?_, hstop⟩
  rw [List.take_succ_cons, Program.runValues, hi]
  exact hrun

theorem StopsOn.runValues_eq (h : StopsOn vars capacity is s n f) :
    Program.runValues vars capacity is s = .error f := by
  obtain ⟨i, s', hi, hrun, hstop⟩ := h
  induction is generalizing s n with
  | nil => simp at hi
  | cons j is ih =>
    rw [Program.runValues]
    cases n with
    | zero =>
      cases hi
      cases hrun
      rw [hstop]
      rfl
    | succ n =>
      rw [List.take_succ_cons, Program.runValues] at hrun
      obtain ⟨t, hj, hrest⟩ := exists_of_bind_eq_ok hrun
      rw [hj]
      exact ih hi hrest

theorem Instruction.onValues_of_lt (i : Instruction α) (h : s.length < i.operands) :
    i.onValues vars capacity s = .error .stackUnderflow := by
  match i, s, h with
  | unary _, [], _ | dup, [], _ | binary _, [], _ | binary _, [_], _ | swap, [], _
  | swap, [_], _ => rfl

theorem Instruction.onValues_of_full (i : Instruction α) (hoperands : i.operands ≤ s.length)
    (hgrows : 0 < i.stackEffect) (hfull : s.length = capacity) :
    i.onValues vars capacity s = .error (.stackOverflow capacity) := by
  have hpush : ∀ a, pushValue capacity a s = .error (.stackOverflow capacity) := by
    intro a
    rw [pushValue, if_neg (by omega)]
  cases i with
  | pushConst k => exact hpush _
  | pushVar v => exact hpush _
  | dup =>
    obtain ⟨a, t, rfl⟩ := List.exists_cons_of_length_pos hoperands
    exact hpush a
  | unary | binary | swap => simp [stackEffect] at hgrows

end Stops

/-! ## Runs end as forecast -/

/-- The run on values ends as it is forecast, unless an operation has a fault before. -/
def EndsAs (vars : Variable → Interval α) (capacity : Nat) (is : List (Instruction α))
    (s : List (Interval α)) : Except (Nat × Fault α) Nat → Prop
  | .ok h => (∃ s', Program.runValues vars capacity is s = .ok s' ∧ s'.length = h) ∨
      ∃ m < is.length, ∃ g, ¬g.IsInternal ∧ StopsOn vars capacity is s m g
  | .error (n, f) => StopsOn vars capacity is s n f ∨
      ∃ m < n, ∃ g, ¬g.IsInternal ∧ StopsOn vars capacity is s m g

section Step

variable {i : Instruction α} {is : List (Instruction α)}

/-- After an instruction that succeeds, the run ends as it does from there, one instruction
later. -/
theorem EndsAs.cons {s' : List (Interval α)} {r : Except (Nat × Fault α) Nat}
    (hi : i.onValues vars capacity s = .ok s') :
    EndsAs vars capacity is s' r → EndsAs vars capacity (i :: is) s (match r with
      | .ok h' => .ok h'
      | .error (n, f) => .error (n + 1, f)) := by
  intro h
  match r, h with
  | .ok h', .inl ⟨t, hrun, ht⟩ =>
    refine .inl ⟨t, ?_, ht⟩
    rw [Program.runValues, hi]
    exact hrun
  | .error (n, f), .inl hstop => exact .inl (hstop.cons hi)
  | .ok _, .inr ⟨m, hm, g, hg, hstop⟩ | .error (_, _), .inr ⟨m, hm, g, hg, hstop⟩ =>
    exact .inr ⟨m + 1, Nat.succ_lt_succ hm, g, hg, hstop.cons hi⟩

private theorem endsAs_of_fault {g : Fault α} (hi : i.onValues vars capacity s = .error g)
    (hg : ¬g.IsInternal) (r : Except (Nat × Fault α) Nat) :
    EndsAs vars capacity (i :: is) s (match r with
      | .ok h' => .ok h'
      | .error (n, f) => .error (n + 1, f)) := by
  match r with
  | .ok _ | .error (_, _) => exact .inr ⟨0, Nat.succ_pos _, g, hg, stopsOn_cons_zero hi⟩

end Step

/-- **A run ends as forecast.** By induction on the instructions: one that the forecast lets pass
changes the number of values by its stack effect, or is an operation that has a fault. -/
theorem Program.runValues_forecast (is : List (Instruction α)) (hle : s.length ≤ capacity) :
    EndsAs vars capacity is s (Instruction.forecast capacity s.length is) := by
  induction is generalizing s with
  | nil => exact .inl ⟨s, rfl, rfl⟩
  | cons i is ih =>
    rw [Instruction.forecast]
    by_cases hoperands : s.length < i.operands
    · rw [if_pos hoperands]
      exact .inl (stopsOn_cons_zero (i.onValues_of_lt hoperands))
    rw [if_neg hoperands]
    by_cases hroom : 0 < i.stackEffect ∧ s.length = capacity
    · rw [if_pos hroom]
      exact .inl (stopsOn_cons_zero (i.onValues_of_full (by omega) hroom.1 hroom.2))
    rw [if_neg hroom]
    have hafter := Instruction.heightAfter_le hle hroom
    have hstep : Leaves _ (i.onValues vars capacity s) := i.leaves_onValues (by omega) hafter
    cases hi : i.onValues vars capacity s with
    | error g =>
      rw [hi] at hstep
      exact endsAs_of_fault hi hstep _
    | ok s' =>
      rw [hi] at hstep
      have hlen : s'.length = i.heightAfter s.length := hstep
      rw [← hlen] at hafter ⊢
      exact EndsAs.cons hi (ih hafter)

/-! ## Runs in a context -/

namespace Program

omit [Scalar α] in
@[simp] theorem onlyValue_eq_error_iff {f : Fault α} :
    onlyValue s = .error f ↔ s.length ≠ 1 ∧ f = .badResult s.length := by
  match s with
  | [_] => simp [onlyValue]
  | [] | _ :: _ :: _ => simp [onlyValue, eq_comm]

/-- The instruction after the first `n` ones ends the run of a program, in the given fault. -/
def StopsAt (p : Program α) (c : Context α) (n : Nat) (f : Fault α) : Prop :=
  ∃ i c' c'', p.code[n]? = some i ∧ steps (p.code.take n) (c.reset p.stackSize) = .ok () c' ∧
    i.step c' = .error f c''

variable {p : Program α} {c : Context α} {n : Nat} {f : Fault α}

private theorem follows_take_reset (p : Program α) (c : Context α) (n : Nat) :
    Evaluation.Follows (c.reset p.stackSize) (steps (p.code.take n) (c.reset p.stackSize))
      (runValues c.lookup (max c.capacity p.stackSize) (p.code.take n) []) :=
  follows_steps_reset ⟨p.code.take n, p.stackSize⟩ c

theorem stopsAt_of_stopsOn
    (h : StopsOn c.lookup (max c.capacity p.stackSize) p.code [] n f) :
    p.StopsAt c n f ∧ p.execute.outcome c = .error f := by
  refine ⟨?_, ?_⟩
  · obtain ⟨i, s, hi, hrun, hstop⟩ := h
    obtain ⟨c', hr, hv, hframe⟩ | ⟨g, c', -, hv, -⟩ := (follows_take_reset p c n).ok_or_error
    · obtain rfl := Except.ok.inj (hrun.symm.trans hv)
      have hcapacity : c'.capacity = max c.capacity p.stackSize :=
        hframe.capacity.trans (capacity_reset c p.stackSize)
      have hlookup : c'.lookup = c.lookup := hframe.lookup
      rw [← hcapacity, ← hlookup] at hstop
      obtain ⟨c'', -, hv', -⟩ | ⟨g, c'', hr', hv', -⟩ :=
        (Evaluation.follows_step i c').ok_or_error
      · cases hstop.symm.trans hv'
      · cases hstop.symm.trans hv'
        exact ⟨i, c', c'', hi, hr, hr'⟩
    · cases hrun.symm.trans hv
  · rw [outcome_execute, h.runValues_eq]
    rfl

/-- A run ends at an instruction before the given one, in a fault of the given kind. -/
def FaultsBefore (p : Program α) (c : Context α) (n : Nat) (P : Fault α → Prop) : Prop :=
  ∃ m < n, ∃ g, P g ∧ p.StopsAt c m g ∧ p.execute.outcome c = .error g

theorem faultsBefore_of_stopsOn
    (h : ∃ m < n, ∃ g, ¬g.IsInternal ∧
      StopsOn c.lookup (max c.capacity p.stackSize) p.code [] m g) :
    p.FaultsBefore c n fun g ↦ ¬g.IsInternal := by
  obtain ⟨m, hm, g, hg, hstop⟩ := h
  exact ⟨m, hm, g, hg, stopsAt_of_stopsOn hstop⟩

/-- What is forecast for a program in a context with the given number of slots. -/
def forecast (p : Program α) (capacity : Nat) : Except (Nat × Fault α) Nat :=
  Instruction.forecast (max capacity p.stackSize) 0 p.code

theorem endsAs_forecast (p : Program α) (c : Context α) :
    EndsAs c.lookup (max c.capacity p.stackSize) p.code [] (p.forecast c.capacity) :=
  runValues_forecast p.code (Nat.zero_le _)

theorem stopsAt_of_forecast (hf : p.forecast c.capacity = .error (n, f)) :
    (p.StopsAt c n f ∧ p.execute.outcome c = .error f) ∨
      p.FaultsBefore c n fun g ↦ ¬g.IsInternal := by
  have hrun := p.endsAs_forecast c
  rw [hf] at hrun
  exact hrun.imp stopsAt_of_stopsOn faultsBefore_of_stopsOn

/-- If no fault is forecast, the run leaves as many values as the forecast says, unless an operation
has a fault. -/
theorem steps_of_forecast {h : Nat} (hf : p.forecast c.capacity = .ok h) :
    (∃ c', steps p.code (c.reset p.stackSize) = .ok () c' ∧ c'.stack.height = h ∧
      p.execute.outcome c = onlyValue c'.stack.toList) ∨
      p.FaultsBefore c p.code.length fun g ↦ ¬g.IsInternal := by
  have hrun := p.endsAs_forecast c
  rw [hf] at hrun
  rcases hrun with ⟨s, hs, hlen⟩ | hfault
  · obtain ⟨c', hr, hv, -⟩ | ⟨g, c', -, hv, -⟩ := (follows_steps_reset p c).ok_or_error
    · obtain rfl := Except.ok.inj (hs.symm.trans hv)
      refine .inl ⟨c', hr, ?_, ?_⟩
      · rw [← hlen, Stack.length_toList]
      · rw [outcome_execute, hs]
        rfl
    · cases hs.symm.trans hv
  · exact .inr (faultsBefore_of_stopsOn hfault)

theorem outcome_ne_badVariable (p : Program α) (c : Context α) (slot : Nat) :
    p.execute.outcome c ≠ .error (.badVariable slot) := by
  intro hbad
  have hfault {n : Nat} : ¬p.FaultsBefore c n fun g ↦ ¬g.IsInternal := by
    rintro ⟨m, -, g, hg, -, hout⟩
    cases hbad.symm.trans hout
    exact hg trivial
  cases hf : p.forecast c.capacity with
  | error nf =>
    obtain ⟨n, f⟩ := nf
    obtain ⟨-, hout⟩ := (stopsAt_of_forecast hf).resolve_right hfault
    cases hbad.symm.trans hout
    rcases Instruction.forecast_eq_error hf with h | h
    · cases h
    · cases h
  | ok h =>
    obtain ⟨c', -, -, hout⟩ := (steps_of_forecast hf).resolve_right hfault
    rw [hbad] at hout
    match c'.stack.toList, hout with
    | [_], hout | [], hout | _ :: _ :: _, hout => cases hout

section Arithmetic

variable [Scalar.Lawful α] [Scalar.OrderedSums α] [Scalar.SignedPowers α]

/-- The faults of operations in a run are arithmetic ones, since no bounds are refused. -/
theorem FaultsBefore.isArithmetic (hc : ∀ v, (c.lookup v).Valid)
    (h : p.FaultsBefore c n fun g ↦ ¬g.IsInternal) :
    p.FaultsBefore c n fun g ↦ g.isArithmetic := by
  obtain ⟨m, hm, g, hg, hstop, hout⟩ := h
  refine ⟨m, hm, g, ?_, hstop, hout⟩
  rcases value_or_fault_execute p hc with ⟨a, ha, -⟩ | ⟨g', hg', hbounds⟩
  · cases hout.symm.trans ha
  · cases hout.symm.trans hg'
    cases g with
    | divisionByZero | nonIntegerExponent => rfl
    | stackOverflow | stackUnderflow | badVariable | badResult => exact absurd trivial hg
    | invalidBounds lower upper => exact absurd rfl (hbounds lower upper)

theorem outcome_eq_error_iff (hc : ∀ v, (c.lookup v).Valid)
    (hnone : ∀ g, p.execute.outcome c = .error g → ¬g.isArithmetic) :
    p.execute.outcome c = .error f ↔ (∃ n, p.forecast c.capacity = .error (n, f)) ∨
      ∃ h, h ≠ 1 ∧ p.forecast c.capacity = .ok h ∧ f = .badResult h := by
  have hfault {n : Nat} : ¬p.FaultsBefore c n fun g ↦ ¬g.IsInternal := by
    intro hbefore
    obtain ⟨m, -, g, hg, -, hout⟩ := hbefore.isArithmetic hc
    exact hnone g hout hg
  cases hf : p.forecast c.capacity with
  | error nf =>
    obtain ⟨n, f'⟩ := nf
    obtain ⟨-, hout⟩ := (stopsAt_of_forecast hf).resolve_right hfault
    rw [hout]
    simp [eq_comm]
  | ok h =>
    obtain ⟨c', -, rfl, hout⟩ := (steps_of_forecast hf).resolve_right hfault
    rw [hout, onlyValue_eq_error_iff, Stack.length_toList]
    simp

end Arithmetic

/-- **Internal faults are decided by the code.** In binary64 arithmetic with any power of the right
sign, a run with valid bindings ends as it is forecast from the instructions and the number of
slots, unless an arithmetic fault comes first: in the forecast fault, at its instruction, or with
the forecast number of values, of which the only one is returned. So bindings matter to internal
faults only through arithmetic ones. -/
theorem internal_faults_decided_by_code (pow : Float → Float → Float)
    (hpow : @Scalar.SignedPowers Float (Binary64.arithmetic pow)) (p : Program Float)
    (c : Context Float) (hc : ∀ v, (c.lookup v).Valid) :
    letI := Binary64.arithmetic pow
    (∀ n f, p.forecast c.capacity = .error (n, f) →
      (p.StopsAt c n f ∧ p.execute.outcome c = .error f) ∨
        p.FaultsBefore c n fun g ↦ g.isArithmetic) ∧
    (∀ h, p.forecast c.capacity = .ok h →
      (∃ c', steps p.code (c.reset p.stackSize) = .ok () c' ∧ c'.stack.height = h ∧
        ((h = 1 ∧ ∃ a, c'.stack.toList = [a] ∧ p.execute.outcome c = .ok a) ∨
          (h ≠ 1 ∧ p.execute.outcome c = .error (.badResult h)))) ∨
        p.FaultsBefore c p.code.length fun g ↦ g.isArithmetic) ∧
    (∀ slot, p.execute.outcome c ≠ .error (.badVariable slot)) ∧
    ∀ c' : Context Float, (∀ v, (c'.lookup v).Valid) → c'.capacity = c.capacity →
      (∀ g, p.execute.outcome c = .error g → ¬g.isArithmetic) →
      (∀ g, p.execute.outcome c' = .error g → ¬g.isArithmetic) →
      ∀ f, p.execute.outcome c = .error f ↔ p.execute.outcome c' = .error f := by
  let := Binary64.arithmetic pow
  have := Binary64.lawful pow
  have := Binary64.orderedSums pow
  have hc : ∀ v, (c.lookup v).Valid := hc
  refine ⟨?_, ?_, outcome_ne_badVariable p c, ?_⟩
  · intro n f hf
    exact (stopsAt_of_forecast hf).imp_right (FaultsBefore.isArithmetic hc)
  · intro h hf
    refine (steps_of_forecast hf).imp ?_ (FaultsBefore.isArithmetic hc)
    rintro ⟨c', hsteps, rfl, hout⟩
    refine ⟨c', hsteps, rfl, ?_⟩
    by_cases hone : c'.stack.height = 1
    · rw [← Stack.length_toList, List.length_eq_one_iff] at hone
      obtain ⟨a, ha⟩ := hone
      rw [ha] at hout
      refine .inl ⟨?_, a, ha, hout⟩
      rw [← Stack.length_toList, ha, List.length_singleton]
    · refine .inr ⟨hone, ?_⟩
      rw [hout, onlyValue_eq_error_iff, Stack.length_toList]
      exact ⟨hone, rfl⟩
  · intro c' hc' hcapacity hnone hnone' f
    have hc' : ∀ v, (c'.lookup v).Valid := hc'
    rw [outcome_eq_error_iff hc hnone, outcome_eq_error_iff hc' hnone', hcapacity]

/-- A program that asks for one slot and pushes three values. -/
def tooManyValues : Program Float := ⟨[.pushVar .x, .dup, .pushConst 1], 1⟩

/-- It runs out of slots at its second instruction, as forecast. -/
theorem tooManyValues_overflows :
    letI := Binary64.arithmetic Binary64.unitPower
    tooManyValues.forecast 0 = .error (1, .stackOverflow 1) ∧
      tooManyValues.StopsAt (.new 0) 1 (.stackOverflow 1) := by
  have hvalid : ∀ i : Fin Variable.count, ((Context.new 0 : Context Float).lookup ⟨i⟩).Valid := by
    decide +kernel
  have hforecast : tooManyValues.forecast 0 = .error (1, .stackOverflow 1) := by decide +kernel
  have hoverflow : letI := Binary64.arithmetic Binary64.unitPower
      tooManyValues.execute.outcome (.new 0) = .error (.stackOverflow 1) := by
    decide +kernel
  have hstops := (internal_faults_decided_by_code Binary64.unitPower
    Binary64.signedPowers_unitPower tooManyValues (.new 0) fun v ↦ hvalid v.index).1 1 _ hforecast
  refine ⟨hforecast, (hstops.resolve_right ?_).1⟩
  rintro ⟨m, -, g, hg, -, hout⟩
  cases hout.symm.trans hoverflow
  cases hg

end Program

end ImplicitPlot
