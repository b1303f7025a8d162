import ImplicitPlot.Proofs.Machine.Values

/-!
# Bindings

Which interval a variable is bound to after a binding or a run. A run over a rectangle binds the two
coordinates and nothing else; in a context whose other variables are zero, as they are in a new one,
the rectangle alone decides all bindings (`overRectangle`).
-/

namespace ImplicitPlot

variable {α : Type} [Scalar α]

/-- The intervals of the variables over a rectangle. -/
def overRectangle (x y : Interval α) (v : Variable) : Interval α :=
  if v = .x then x else if v = .y then y else .point 0

/-- What holds of both sides of a rectangle, and of zero, holds of all variables over it. -/
theorem overRectangle_of {P : Interval α → Prop} {x y : Interval α} (hx : P x) (hy : P y)
    (hzero : P (.point 0)) (v : Variable) : P (overRectangle x y v) := by
  rw [overRectangle]
  split
  · exact hx
  split
  · exact hy
  · exact hzero

namespace Context

omit [Scalar α] in
theorem lookup_assign (c : Context α) (v w : Variable) (a : Interval α) :
    (c.assign v a).lookup w = if w = v then a else c.lookup w := by
  change (c.bindings.set v.index.val a v.index.isLt)[w.index.val] = _
  rw [Vector.getElem_set]
  by_cases h : w = v
  · rw [if_pos h, if_pos (by rw [h])]
  · rw [if_neg h, if_neg fun hindex ↦ h (congrArg Variable.mk (Fin.ext hindex.symm))]
    rfl

@[simp] theorem lookup_new (capacity : Nat) (v : Variable) :
    (Context.new capacity : Context α).lookup v = .point 0 := by
  change (Vector.replicate Variable.count (Interval.point (0 : α)))[v.index.val] = _
  exact Vector.getElem_replicate _

/-- The variables other than the coordinates are zero. -/
def OthersZero (c : Context α) : Prop := ∀ v, v ≠ .x → v ≠ .y → c.lookup v = .point 0

theorem OthersZero.lookup_assign_coordinates {c : Context α} (h : c.OthersZero)
    (x y : Interval α) : ((c.assign .x x).assign .y y).lookup = overRectangle x y := by
  funext v
  rw [lookup_assign, lookup_assign, overRectangle]
  by_cases hx : v = .x
  · rw [if_pos hx, if_pos hx, if_neg]
    rw [hx]
    decide
  · rw [if_neg hx, if_neg hx]
    by_cases hy : v = .y
    · rw [if_pos hy, if_pos hy]
    · rw [if_neg hy, if_neg hy, h v hx hy]

@[simp] theorem othersZero_new (capacity : Nat) : (Context.new capacity : Context α).OthersZero :=
  fun v _ _ ↦ lookup_new capacity v

end Context

namespace Program

variable (p : Program α) (c : Context α) (x y : Interval α)

@[simp] theorem outcome_executeOver :
    (p.executeOver x y).outcome c = p.execute.outcome ((c.assign .x x).assign .y y) := rfl

@[simp] theorem after_executeOver :
    (p.executeOver x y).after c = p.execute.after ((c.assign .x x).assign .y y) := rfl

@[simp] theorem lookup_after_execute : (p.execute.after c).lookup = c.lookup := by
  funext v
  rw [Context.lookup, bindings_after_execute]
  rfl

theorem lookup_after_executeOver (v : Variable) :
    ((p.executeOver x y).after c).lookup v
      = if v = .y then y else if v = .x then x else c.lookup v := by
  rw [after_executeOver, lookup_after_execute, Context.lookup_assign, Context.lookup_assign]

theorem capacity_after_executeOver :
    ((p.executeOver x y).after c).capacity = max c.capacity p.stackSize := by
  rw [after_executeOver, capacity_after_execute]
  rfl

theorem othersZero_after_executeOver {c : Context α} (h : c.OthersZero) :
    ((p.executeOver x y).after c).OthersZero := by
  intro v hx hy
  rw [lookup_after_executeOver, if_neg hy, if_neg hx]
  exact h v hx hy

/-- **What a run returns** is the same in two contexts with the same bindings and as many slots,
whatever their stacks hold. -/
theorem outcome_execute_congr {c c' : Context α} (hlookup : c.lookup = c'.lookup)
    (hcapacity : c.capacity = c'.capacity) : p.execute.outcome c = p.execute.outcome c' := by
  rw [outcome_execute, outcome_execute, hlookup, hcapacity]

end Program

end ImplicitPlot
