import ImplicitPlot.Machine.Compile
import ImplicitPlot.Proofs.Machine.PlanCode
import ImplicitPlot.Proofs.Scalar.Binary64

/-!
# Compiled formulas

What the programs of a formula compute and what they need. The reference for the value is a
recursion over the formula that knows of no stack: `Expr.onIntervals` for the formula as it is
written, `Expr.onIntervalsShared` where small powers are products and a value is shared with its own
magnitude. Both compilers go through a plan, so it remains to compare the value of the plan with
the recursion, and the slots of the plan with the depth of the formula.
-/

namespace ImplicitPlot

variable {α : Type}

/-! ## Evaluation by recursion -/

namespace Expr

theorem depth_pos (e : Expr α) : 0 < e.depth := by
  induction e with
  | const | var => exact Nat.one_pos
  | unary _ _ ih => exact ih
  | binary => exact Nat.lt_of_lt_of_le Nat.one_pos (Nat.le_add_right 1 _)

variable [Scalar α]

/-- The value of a formula over intervals: operands first, from left to right. -/
def onIntervals (vars : Variable → Interval α) : Expr α → Except (Fault α) (Interval α)
  | const c => .ok (.point c)
  | var v => .ok (vars v)
  | unary op a => do
    let x ← a.onIntervals vars
    op.onInterval x
  | binary op a b => do
    let x ← a.onIntervals vars
    let y ← b.onIntervals vars
    op.onIntervals x y

/-- The number of factors of a power with this exponent, if it is small enough for a product. -/
def factors? (e : Expr α) : Option Nat :=
  (e.asInteger?.filter fun k ↦ 1 ≤ k ∧ k ≤ 4).map Int.toNat

/-- The formula is the magnitude of one that is nearly the other formula. -/
def IsMagnitudeOf (a b : Expr α) : Prop := ∃ e, a = unary .abs e ∧ e.nearlyEquals b

@[simp] theorem isAbsBefore_iff (a b : Expr α) : Sharing.isAbsBefore a b ↔ a.IsMagnitudeOf b := by
  constructor
  · intro h
    match a, h with
    | unary .abs e, h => exact ⟨e, rfl, h⟩
  · rintro ⟨e, rfl, h⟩
    exact h

@[simp] theorem isAbsAfter_iff (a b : Expr α) : Sharing.isAbsAfter a b ↔ b.IsMagnitudeOf a := by
  constructor
  · intro h
    match b, h with
    | unary .abs e, h => exact ⟨e, rfl, h⟩
  · rintro ⟨e, rfl, h⟩
    exact h

instance (a b : Expr α) : Decidable (a.IsMagnitudeOf b) := decidable_of_iff _ (isAbsBefore_iff a b)

/-- The value of a formula over intervals, with small powers as products, and a value that is added
to or taken from its own magnitude evaluated once. -/
def onIntervalsShared (vars : Variable → Interval α) : Expr α → Except (Fault α) (Interval α)
  | const c => .ok (.point c)
  | var v => .ok (vars v)
  | unary op a => do
    let x ← a.onIntervalsShared vars
    op.onInterval x
  | binary op a b =>
    let plain : Except (Fault α) (Interval α) := do
      let x ← a.onIntervalsShared vars
      let y ← b.onIntervalsShared vars
      op.onIntervals x y
    match op with
    | .add | .sub =>
      if a.IsMagnitudeOf b then do
        let y ← b.onIntervalsShared vars
        let x ← y.abs
        op.onIntervals x y
      else if b.IsMagnitudeOf a then do
        let x ← a.onIntervalsShared vars
        let y ← x.abs
        op.onIntervals x y
      else plain
    | .pow =>
      match b.factors? with
      | some n => do
        let x ← a.onIntervalsShared vars
        let y ← if n % 2 = 0 then x.abs else .ok x
        y.product (n - 1)
      | none => plain
    | .mul | .div => plain

end Expr

/-! ## The values of the plans -/

section Values

variable [Scalar α] {vars : Variable → Interval α}

namespace Plan

theorem value_direct (e : Expr α) : (direct e).value vars = e.onIntervals vars := by
  induction e with
  | const | var => rfl
  | unary op a ih => rw [direct, value, ih, Expr.onIntervals]
  | binary op a b iha ihb => rw [direct, value, iha, ihb, Expr.onIntervals]

/-- The plan of a power is a product exactly if the exponent has a number of factors. -/
theorem rewritten_pow (a e : Expr α) :
    rewritten (.binary .pow a e) = match e.factors? with
      | some n => power (rewritten a) n
      | none => binary .pow (rewritten a) (rewritten e) := by
  rw [rewritten, Sharing.find, Sharing.ofExponent, Expr.factors?]
  cases e.asInteger? with
  | none => rfl
  | some k =>
    rw [Option.filter_some]
    by_cases hk : 1 ≤ k ∧ k ≤ 4
    · simp only [hk, and_self, decide_true, if_true, Option.map_some]
    · simp only [hk, decide_false, if_false, Option.map_none, Bool.false_eq_true]

/-- The plan of a sum or difference shares a value exactly if one operand is the magnitude of the
other one. -/
theorem rewritten_ofOperands {op : BinaryOp} (hop : op = .add ∨ op = .sub) (a b : Expr α) :
    rewritten (.binary op a b) =
      if a.IsMagnitudeOf b then absBefore op (rewritten b)
      else if b.IsMagnitudeOf a then absAfter op (rewritten a)
      else binary op (rewritten a) (rewritten b) := by
  have hfind : Sharing.find op a b = Sharing.ofOperands a b := by
    rcases hop with rfl | rfl <;> rfl
  rw [rewritten, hfind, Sharing.ofOperands]
  by_cases ha : a.IsMagnitudeOf b
  · rw [if_pos ha, if_pos ((Expr.isAbsBefore_iff a b).mpr ha)]
  · rw [if_neg ha, if_neg (mt (Expr.isAbsBefore_iff a b).mp ha)]
    by_cases hb : b.IsMagnitudeOf a
    · rw [if_pos hb, if_pos ((Expr.isAbsAfter_iff a b).mpr hb)]
    · rw [if_neg hb, if_neg (mt (Expr.isAbsAfter_iff a b).mp hb)]

end Plan

theorem Interval.add_comm_of (hadd : ∀ a b : α, a + b = b + a) (x y : Interval α) :
    x.add y = y.add x := by
  rw [add, add, hadd x.lower, hadd x.upper]

namespace Plan

/-- A magnitude in front of its value, in the order of the formula: a sum is computed the other way
around. -/
theorem value_absBefore (hadd : ∀ a b : α, a + b = b + a) {op : BinaryOp}
    (hop : op = .add ∨ op = .sub) (p : Plan α) :
    (absBefore op p).value vars = (do
      let y ← p.value vars
      let x ← y.abs
      op.onIntervals x y) := by
  rw [value]
  cases p.value vars with
  | error f => rfl
  | ok y =>
    change (y.abs >>= _) = (y.abs >>= _)
    cases y.abs with
    | error f => rfl
    | ok x =>
      rcases hop with rfl | rfl
      · exact Interval.add_comm_of hadd y x
      · rfl

/-- **The rewritten plan** has the value of the recursion that shares. By induction on the formula;
which shape a sum, a difference or a power has is decided in the same way on both sides. -/
theorem value_rewritten (hadd : ∀ a b : α, a + b = b + a) (e : Expr α) :
    (rewritten e).value vars = e.onIntervalsShared vars := by
  induction e with
  | const | var => rfl
  | unary op a ih => rw [rewritten, value, ih, Expr.onIntervalsShared]
  | binary op a b iha ihb =>
    -- The operands of an operation without shared values.
    have hplain : (binary op (rewritten a) (rewritten b)).value vars = (do
        let x ← a.onIntervalsShared vars
        let y ← b.onIntervalsShared vars
        op.onIntervals x y) := by
      rw [value, iha, ihb]
    have hsum : op = .add ∨ op = .sub → (rewritten (.binary op a b)).value vars
        = if a.IsMagnitudeOf b then (do
            let y ← b.onIntervalsShared vars
            let x ← y.abs
            op.onIntervals x y)
          else if b.IsMagnitudeOf a then (do
            let x ← a.onIntervalsShared vars
            let y ← x.abs
            op.onIntervals x y)
          else (do
            let x ← a.onIntervalsShared vars
            let y ← b.onIntervalsShared vars
            op.onIntervals x y) := by
      intro hop
      rw [rewritten_ofOperands hop]
      by_cases ha : a.IsMagnitudeOf b
      · rw [if_pos ha, if_pos ha, value_absBefore hadd hop, ihb]
      · rw [if_neg ha, if_neg ha]
        by_cases hb : b.IsMagnitudeOf a
        · rw [if_pos hb, if_pos hb, value, iha]
        · rw [if_neg hb, if_neg hb, hplain]
    cases op with
    | add => exact hsum (.inl rfl)
    | sub => exact hsum (.inr rfl)
    | mul => exact hplain
    | div => exact hplain
    | pow =>
      rw [rewritten_pow, Expr.onIntervalsShared]
      cases b.factors? with
      | none => exact hplain
      | some n => simp only [value, iha]

end Plan

end Values

/-! ## The slots of the plans -/

namespace Plan

private theorem isOperation_of_mem_code_direct (e : Expr α) :
    ∀ i ∈ (direct e).code, i ≠ .dup ∧ i ≠ .swap := by
  induction e with
  | const c | var v =>
    intro i hi
    rw [List.mem_singleton.mp hi]
    exact ⟨nofun, nofun⟩
  | unary op a ih =>
    intro i hi
    rcases List.mem_append.mp hi with hi | hi
    · exact ih i hi
    · rw [List.mem_singleton.mp hi]
      exact ⟨nofun, nofun⟩
  | binary op a b iha ihb =>
    intro i hi
    rcases List.mem_append.mp hi with hi | hi
    · rcases List.mem_append.mp hi with hi | hi
      · exact iha i hi
      · exact ihb i hi
    · rw [List.mem_singleton.mp hi]
      exact ⟨nofun, nofun⟩

private theorem slots_direct_le (e : Expr α) : (direct e).slots ≤ e.depth := by
  induction e with
  | const | var => exact Nat.le_refl 1
  | unary op a ih => exact ih
  | binary op a b iha ihb =>
    rw [direct, slots, Expr.depth]
    omega

variable [Scalar α]

private theorem factors_le {e : Expr α} {n : Nat} (h : e.factors? = some n) : n ≤ 4 := by
  rw [Expr.factors?, Option.map_eq_some_iff] at h
  obtain ⟨k, hk, rfl⟩ := h
  have hbounds := of_decide_eq_true (Option.filter_eq_some_iff.mp hk).2
  omega

/-- Two slots more than the depth are enough for the four factors of a product: an operation with
operands has at least the depth two. -/
theorem slots_rewritten_le (e : Expr α) : (rewritten e).slots ≤ e.depth + 2 := by
  induction e with
  | const | var => exact Nat.le_add_left 1 2
  | unary op a ih => exact ih
  | binary op a b iha ihb =>
    have hplain : (binary op (rewritten a) (rewritten b)).slots
        ≤ (Expr.binary op a b).depth + 2 := by
      rw [slots, Expr.depth]
      omega
    have hsum : op = .add ∨ op = .sub →
        (rewritten (.binary op a b)).slots ≤ (Expr.binary op a b).depth + 2 := by
      intro hop
      rw [rewritten_ofOperands hop]
      split
      · rw [slots, Expr.depth]
        omega
      split
      · rw [slots, Expr.depth]
        omega
      · exact hplain
    cases op with
    | add => exact hsum (.inl rfl)
    | sub => exact hsum (.inr rfl)
    | mul => exact hplain
    | div => exact hplain
    | pow =>
      rw [rewritten_pow]
      cases hn : b.factors? with
      | none => exact hplain
      | some n =>
        have hfour := factors_le hn
        have hpos := a.depth_pos
        simp only [slots, Expr.depth]
        omega

end Plan

/-! ## Programs -/

namespace Program

/-- The slots of a program suit its formula and its plan. -/
theorem stackSize_ofPlan_le {e : Expr α} {plan : Plan α} {n : Nat} (hdepth : e.depth ≤ n)
    (hslots : plan.slots ≤ n) : (ofPlan e plan).stackSize ≤ n := by
  have hpeak : Instruction.peak 0 plan.code ≤ n :=
    (plan.walk_code 0 (by rwa [Nat.zero_add])).peak_le (Nat.zero_le n)
  exact Nat.max_le.mpr ⟨hdepth, hpeak⟩

theorem wellFormed_ofPlan (e : Expr α) (plan : Plan α) : (ofPlan e plan).WellFormed :=
  (plan.walk_code 0 (Nat.le_refl _)).within_peak.mono (Nat.le_max_right _ _)

@[simp] theorem stackSize_compileDirect (e : Expr α) : (compileDirect e).stackSize = e.depth :=
  Nat.le_antisymm (stackSize_ofPlan_le (Nat.le_refl _) (Plan.slots_direct_le e))
    (Nat.le_max_left _ _)

variable [Scalar α]

/-- The program for a plan returns the value of the plan: its slots are enough, whatever the context
has in store. -/
theorem outcome_ofPlan (e : Expr α) (plan : Plan α) (c : Context α) :
    (ofPlan e plan).execute.outcome c = plan.value c.lookup := by
  -- The bound on the slots of a plan may exceed the greatest height, but the run cannot tell.
  have hrun : runValues c.lookup (max c.capacity (ofPlan e plan).stackSize) plan.code []
      = runValues c.lookup (max (ofPlan e plan).stackSize plan.slots) plan.code [] :=
    (wellFormed_ofPlan e plan).runValues_eq (Nat.le_max_right _ _) (Nat.le_max_left _ _) rfl
  have hcode : runValues c.lookup (max (ofPlan e plan).stackSize plan.slots) (plan.code ++ []) []
      = plan.value c.lookup >>= fun x ↦ runValues c.lookup _ [] [x] :=
    plan.runValues_code (by rw [List.length_nil, Nat.zero_add]; exact Nat.le_max_right _ _)
  rw [List.append_nil] at hcode
  refine (outcome_execute _ c).trans ((congrArg (· >>= onlyValue) (hrun.trans hcode)).trans ?_)
  cases plan.value c.lookup <;> rfl

@[simp] theorem outcome_compileDirect (e : Expr α) (c : Context α) :
    (compileDirect e).execute.outcome c = e.onIntervals c.lookup :=
  (outcome_ofPlan e _ c).trans (Plan.value_direct e)

theorem outcome_compile (hadd : ∀ a b : α, a + b = b + a) (e : Expr α) (c : Context α) :
    (compile e).execute.outcome c = e.onIntervalsShared c.lookup :=
  (outcome_ofPlan e _ c).trans (Plan.value_rewritten hadd e)

/-- **Compiled programs compute the formula.** In every context, whatever its stack holds and
however many slots it has, the direct program returns the value or the fault of the recursion over
the formula, and the program with shared values that of the recursion that shares. -/
theorem compiled_programs_compute_formula (e : Expr Float) (c : Context Float) :
    (compileDirect e).execute.outcome c = e.onIntervals c.lookup ∧
      (compile e).execute.outcome c = e.onIntervalsShared c.lookup :=
  ⟨outcome_compileDirect e c, outcome_compile Binary64.add_comm e c⟩

/-- **Compiled programs are well formed.** Down the instructions, operands and slots suffice and one
value is left; the direct program has as many slots as the formula is deep and moves no values, and
sharing takes at most two slots more. So neither program ends in an internal fault, in any
context. -/
theorem compiled_programs_well_formed (e : Expr α) :
    (compileDirect e).WellFormed ∧ (compile e).WellFormed ∧
      (compileDirect e).stackSize = e.depth ∧
      (∀ i ∈ (compileDirect e).code, i ≠ .dup ∧ i ≠ .swap) ∧
      e.depth ≤ (compile e).stackSize ∧ (compile e).stackSize ≤ e.depth + 2 ∧
      ∀ c f, ((compileDirect e).execute.outcome c = .error f ∨
        (compile e).execute.outcome c = .error f) → ¬f.IsInternal := by
  refine ⟨wellFormed_ofPlan e _, wellFormed_ofPlan e _, stackSize_compileDirect e,
    Plan.isOperation_of_mem_code_direct e, Nat.le_max_left _ _,
    stackSize_ofPlan_le (Nat.le_add_right _ 2) (Plan.slots_rewritten_le e), ?_⟩
  rintro c f (hf | hf)
  · exact (wellFormed_ofPlan e _).not_isInternal c hf
  · exact (wellFormed_ofPlan e _).not_isInternal c hf

end Program

end ImplicitPlot
