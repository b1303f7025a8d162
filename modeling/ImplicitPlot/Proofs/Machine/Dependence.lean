import ImplicitPlot.Proofs.Machine.Height
import ImplicitPlot.Proofs.Sequence

/-!
# What a run depends on

A run reads the variables that its instructions push, and no others. So two runs with the same
intervals for these variables do the same step by step (`Program.runValues_congr`), and what the
intervals of these variables have in common with constants and operations pass on is true of all
values on the stack (`Interval.Inherited.runValues`). Both are by induction on the instructions.

A well-formed program has the slots that it needs in every context, so that its result depends on
those variables alone (`Program.WellFormed.outcome_congr`).
-/

namespace ImplicitPlot

variable {α : Type} [Scalar α]

/-- A property of intervals that single values have, and that results of operations have if their
operands do. -/
structure Interval.Inherited (P : Interval α → Prop) : Prop where
  point (v : α) : P (.point v)
  unary {op : UnaryOp} {a r : Interval α} : op.onInterval a = .ok r → P a → P r
  binary {op : BinaryOp} {a b r : Interval α} : op.onIntervals a b = .ok r → P a → P b → P r

variable {vars vars' : Variable → Interval α} {capacity : Nat} {i : Instruction α}
  {is : List (Instruction α)} {s t : List (Interval α)} {P : Interval α → Prop}

/-! ## The same variables -/

theorem Instruction.onValues_congr (h : ∀ v, i = .pushVar v → vars v = vars' v) :
    i.onValues vars capacity s = i.onValues vars' capacity s := by
  match i, s with
  | pushVar v, s => simp only [onValues, h v rfl]
  | pushConst _, _ | unary _, [] | unary _, _ :: _ | dup, [] | dup, _ :: _ => rfl
  | binary _, [] | binary _, [_] | binary _, _ :: _ :: _ => rfl
  | swap, [] | swap, [_] | swap, _ :: _ :: _ => rfl

/-- **Runs with the same intervals for the variables that are pushed** are the same. -/
theorem Program.runValues_congr (h : ∀ v, .pushVar v ∈ is → vars v = vars' v) :
    runValues vars capacity is s = runValues vars' capacity is s := by
  induction is generalizing s with
  | nil => rfl
  | cons i is ih =>
    have hi : i.onValues vars capacity s = i.onValues vars' capacity s :=
      Instruction.onValues_congr fun v hv ↦ h v (by simp [hv])
    have his : ∀ v, .pushVar v ∈ is → vars v = vars' v := fun v hv ↦ h v (List.mem_cons_of_mem _ hv)
    rw [runValues, runValues, hi]
    exact bind_congr_of_ok fun t _ ↦ ih his

/-! ## Inherited properties -/

omit [Scalar α] in
theorem forall_of_pushValue {a : Interval α} (h : pushValue capacity a s = .ok t) (ha : P a)
    (hs : ∀ b ∈ s, P b) : ∀ b ∈ t, P b := by
  rw [pushValue] at h
  split at h
  · cases h
    exact List.forall_mem_cons.mpr ⟨ha, hs⟩
  · cases h

namespace Interval.Inherited

/-- One instruction passes an inherited property on to the values that it leaves. -/
theorem onValues (hP : Inherited P) (hvars : ∀ v, i = .pushVar v → P (vars v))
    (hs : ∀ a ∈ s, P a) (h : i.onValues vars capacity s = .ok t) : ∀ a ∈ t, P a := by
  match i, s, h with
  | .pushConst v, s, h => exact forall_of_pushValue h (hP.point v) hs
  | .pushVar v, s, h => exact forall_of_pushValue h (hvars v rfl) hs
  | .unary op, a :: s, h =>
    obtain ⟨r, hr, hrest⟩ := exists_of_bind_eq_ok h
    cases hrest
    simp only [List.forall_mem_cons] at hs ⊢
    exact ⟨hP.unary hr hs.1, hs.2⟩
  | .binary op, b :: a :: s, h =>
    obtain ⟨r, hr, hrest⟩ := exists_of_bind_eq_ok h
    cases hrest
    simp only [List.forall_mem_cons] at hs ⊢
    exact ⟨hP.binary hr hs.2.1 hs.1, hs.2.2⟩
  | .dup, a :: s, h => exact forall_of_pushValue h (List.forall_mem_cons.mp hs).1 hs
  | .swap, b :: a :: s, h =>
    cases h
    simp only [List.forall_mem_cons] at hs ⊢
    exact ⟨hs.2.1, hs.1, hs.2.2⟩

/-- **Runs pass inherited properties on.** -/
theorem runValues (hP : Inherited P) (hvars : ∀ v, .pushVar v ∈ is → P (vars v))
    (hs : ∀ a ∈ s, P a) (h : Program.runValues vars capacity is s = .ok t) : ∀ a ∈ t, P a := by
  induction is generalizing s with
  | nil =>
    cases h
    exact hs
  | cons i is ih =>
    obtain ⟨u, hu, hrest⟩ := exists_of_bind_eq_ok h
    have hi : ∀ a ∈ u, P a := hP.onValues (fun v hv ↦ hvars v (by simp [hv])) hs hu
    exact ih (fun v hv ↦ hvars v (List.mem_cons_of_mem _ hv)) hi hrest

end Interval.Inherited

/-! ## Programs -/

variable {p : Program α} {c c' : Context α}

/-- **What a well-formed program returns** depends on the intervals of the variables that it pushes,
and on nothing else in the context. -/
theorem Program.WellFormed.outcome_congr (hp : p.WellFormed)
    (h : ∀ v, .pushVar v ∈ p.code → c.lookup v = c'.lookup v) :
    p.execute.outcome c = p.execute.outcome c' := by
  rw [outcome_execute, outcome_execute, runValues_congr h,
    Walk.runValues_eq hp (Nat.le_max_right c.capacity _) (Nat.le_max_right c'.capacity _) rfl]

theorem Interval.Inherited.outcome (hP : Inherited P)
    (hvars : ∀ v, .pushVar v ∈ p.code → P (c.lookup v)) {r : Interval α}
    (h : p.execute.outcome c = .ok r) : P r := by
  rw [Program.outcome_execute] at h
  obtain ⟨s, hs, hr⟩ := exists_of_bind_eq_ok h
  have hall := hP.runValues hvars (fun a ha ↦ absurd ha List.not_mem_nil) hs
  match s, hr with
  | [_], hr =>
    cases hr
    exact hall _ List.mem_cons_self

end ImplicitPlot
