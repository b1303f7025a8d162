import ImplicitPlot.Proofs.Formula.PointEvaluation
import ImplicitPlot.Proofs.Interval.Degenerate
import ImplicitPlot.Proofs.Machine.Dependence

/-!
# The variables that a formula names

Both programs of a formula push only variables that the formula names (`Expr.Names`): with shared
values the code of an operand may be left out, but none is added. So what they return depends on the
intervals of these variables alone, and it is a single value if these are.
-/

namespace ImplicitPlot

variable {α : Type}

namespace Expr

/-- The variable stands in the formula. -/
def Names (v : Variable) : Expr α → Prop
  | const _ => False
  | var w => w = v
  | unary _ a => a.Names v
  | binary _ a b => a.Names v ∨ b.Names v

instance (v : Variable) : (e : Expr α) → Decidable (e.Names v)
  | const _ => inferInstanceAs (Decidable False)
  | var w => inferInstanceAs (Decidable (w = v))
  | unary _ a => instDecidableNames v a
  | binary _ a b =>
    have := instDecidableNames v a
    have := instDecidableNames v b
    inferInstanceAs (Decidable (_ ∨ _))

theorem isConstant_iff (e : Expr α) : e.isConstant ↔ ∀ v, ¬e.Names v := by
  induction e with
  | const c => simp [isConstant, Names]
  | var w => simp [isConstant, Names]
  | unary op a ih => exact ih
  | binary op a b iha ihb => simp [isConstant, Names, iha, ihb, not_or, forall_and]

end Expr

namespace Plan

/-! ## The variables in the code of a plan -/

variable {v : Variable} {op : BinaryOp} {a b : Plan α} {n : Nat}

@[simp] theorem pushVar_mem_binary :
    .pushVar v ∈ (binary op a b).code ↔ .pushVar v ∈ a.code ∨ .pushVar v ∈ b.code := by
  simp [code]

@[simp] theorem pushVar_mem_power : .pushVar v ∈ (power a n).code ↔ .pushVar v ∈ a.code := by
  have habs : .pushVar v ∉ (if n % 2 = 0 then [.unary .abs] else [] : List (Instruction α)) := by
    split <;> simp
  simp [code, habs]

@[simp] theorem pushVar_mem_absBefore :
    .pushVar v ∈ (absBefore op a).code ↔ .pushVar v ∈ a.code := by
  have hswap : .pushVar v ∉ (if op = .sub then [.swap] else [] : List (Instruction α)) := by
    split <;> simp
  simp [code, hswap]

@[simp] theorem pushVar_mem_absAfter : .pushVar v ∈ (absAfter op a).code ↔ .pushVar v ∈ a.code := by
  simp [code]

theorem pushVar_mem_direct (e : Expr α) : .pushVar v ∈ (direct e).code ↔ e.Names v := by
  induction e with
  | const c => simp [direct, code, Expr.Names]
  | var w => simp [direct, code, Expr.Names, eq_comm]
  | unary op a ih => simp [direct, code, Expr.Names, ih]
  | binary op a b iha ihb => rw [direct, pushVar_mem_binary, iha, ihb, Expr.Names]

/-- No rewriting brings in a variable, since a shared value is that of an operand. -/
theorem names_of_pushVar_mem_rewritten [Scalar α] {e : Expr α}
    (h : .pushVar v ∈ (rewritten e).code) : e.Names v := by
  induction e with
  | const c => simp [rewritten, code] at h
  | var w => simpa [rewritten, code, Expr.Names, eq_comm] using h
  | unary op a ih =>
    refine ih ?_
    simpa [rewritten, code] using h
  | binary op a b iha ihb =>
    rw [rewritten] at h
    split at h
    · exact (pushVar_mem_binary.mp h).imp iha ihb
    · exact .inl (iha (pushVar_mem_power.mp h))
    · exact .inr (ihb (pushVar_mem_absBefore.mp h))
    · exact .inl (iha (pushVar_mem_absAfter.mp h))

end Plan

/-! ## Programs -/

theorem Interval.inherited_isDegenerate [Scalar α] [Scalar.Lawful α] [Scalar.OrderedSums α]
    [Scalar.SizeDetermined α] : Inherited (IsDegenerate (α := α)) where
  point := isDegenerate_point
  unary := fun h ha ↦ UnaryOp.isDegenerate_of_onInterval ha h
  binary := fun h ha hb ↦ BinaryOp.isDegenerate_of_onIntervals ha hb h

open Binary64 in
/-- **Results depend on the variables that a formula names, and single values stay single.** Both
programs of a formula return the same interval or the same fault in any two contexts that bind the
variables in the formula to the same intervals, whatever else is in the contexts. So a constant
formula has one result. If each of these variables is bound to a point, and the power is as it
should be at zeros, the result is a point, or its bounds are not numbers. -/
theorem results_depend_on_named_variables (pow : Float → Float → Float) (e : Expr Float) :
    letI := arithmetic pow
    ∀ p, p = Program.compileDirect e ∨ p = Program.compile e →
      (∀ c c', (∀ v, e.Names v → c.lookup v = c'.lookup v) →
        p.execute.outcome c = p.execute.outcome c') ∧
      (e.isConstant → ∃ r, ∀ c, p.execute.outcome c = r) ∧
      (PowersOfZero pow → ∀ c, (∀ v, e.Names v → (c.lookup v).IsPoint) →
        ∀ I, p.execute.outcome c = .ok I → I.IsDegenerate) := by
  let := arithmetic pow
  have := lawful pow
  have := orderedSums pow
  intro p hp
  have hwell : p.WellFormed := by
    rcases hp with rfl | rfl
    · exact Program.wellFormed_ofPlan e _
    · exact Program.wellFormed_ofPlan e _
  have hnames : ∀ v, .pushVar v ∈ p.code → e.Names v := by
    rcases hp with rfl | rfl
    · exact fun v ↦ (Plan.pushVar_mem_direct e).mp
    · exact fun v ↦ Plan.names_of_pushVar_mem_rewritten
  have hsame : ∀ c c', (∀ v, e.Names v → c.lookup v = c'.lookup v) →
      p.execute.outcome c = p.execute.outcome c' :=
    fun c c' h ↦ hwell.outcome_congr fun v hv ↦ h v (hnames v hv)
  refine ⟨hsame, fun hconst ↦ ?_, fun hpow c hc I hI ↦ ?_⟩
  · have hnone := e.isConstant_iff.mp hconst
    exact ⟨_, fun c ↦ hsame c (.new 0) fun v hv ↦ absurd hv (hnone v)⟩
  · have := sizeDetermined hpow
    exact Interval.inherited_isDegenerate.outcome (fun v hv ↦ .inl (hc v (hnames v hv))) hI

/-- A context in which one variable is minus one, and the bounds of another one are the two
zeros. -/
def betweenZeros (capacity : Nat) : Context Float :=
  ((Context.new capacity).assign .x (.point (-1))).assign .y ⟨0, -0⟩

/-- A third variable, which the formula does not name, and further slots make no difference. -/
theorem zeroPerCube_betweenZeros :
    letI := Binary64.arithmetic Binary64.unitPower
    ∃ I, (Program.compile zeroPerCube).execute.outcome (betweenZeros 0) = .ok I ∧ I.IsDegenerate ∧
      (Program.compile zeroPerCube).execute.outcome ((betweenZeros 9).assign ⟨0⟩ ⟨1, 2⟩)
        = .ok I := by
  have hpoint : ∀ i : Fin Variable.count, zeroPerCube.Names ⟨i⟩ →
      ((betweenZeros 0).lookup ⟨i⟩).IsPoint := by
    decide +kernel
  let := Binary64.arithmetic Binary64.unitPower
  obtain ⟨hsame, -, hpoints⟩ := results_depend_on_named_variables Binary64.unitPower zeroPerCube
    (Program.compile zeroPerCube) (.inr rfl)
  have hlookup : ∀ i : Fin Variable.count, zeroPerCube.Names ⟨i⟩ →
      (betweenZeros 0).lookup ⟨i⟩ = ((betweenZeros 9).assign ⟨0⟩ ⟨1, 2⟩).lookup ⟨i⟩ := by
    decide +kernel
  have hvalue : (Program.compile zeroPerCube).execute.outcome (betweenZeros 0)
      = .ok ⟨-0, -0⟩ := by
    decide +kernel
  refine ⟨_, hvalue, ?_, ?_⟩
  · exact hpoints Binary64.powersOfZero_unitPower _ (fun v ↦ hpoint v.index) _ hvalue
  · rw [← hsame (betweenZeros 0) _ fun v ↦ hlookup v.index]
    exact hvalue

end ImplicitPlot
