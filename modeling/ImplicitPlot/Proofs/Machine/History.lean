import ImplicitPlot.Proofs.Machine.Bindings
import ImplicitPlot.Proofs.Machine.Compile

/-!
# What a context remembers

A context outlives the runs of many programs. Its stack is never cleared: intervals of earlier runs
stay in their slots, and a run that ends in a fault leaves the height wherever it was. All the same,
a run can tell only two things about the past, the last binding of each variable and the greatest
number of slots that was ever asked for.

A past is a list of uses (`ContextUse`), and both things are read off that list without running
anything: `lastBinding` and `slotsAsked`. What one use does to a context is proved once
(`ContextUse.lookup_apply`, `ContextUse.capacity_apply`), and the rest is induction on the past.
-/

namespace ImplicitPlot

variable {α : Type}

/-! ## Pasts -/

/-- One use of a context. -/
inductive ContextUse (α : Type)
  | assign (v : Variable) (a : Interval α)
  | reset (capacity : Nat)
  | execute (p : Program α)
  | executeOver (p : Program α) (x y : Interval α)

namespace ContextUse

/-- The interval to which a use binds a variable. -/
def binding? (v : Variable) : ContextUse α → Option (Interval α)
  | assign w a => if v = w then some a else none
  | executeOver _ x y => if v = .x then some x else if v = .y then some y else none
  | reset _ | execute _ => none

/-- The number of stack slots that a use asks for. -/
def slots : ContextUse α → Nat
  | assign _ _ => 0
  | reset capacity => capacity
  | execute p | executeOver p _ _ => p.stackSize

end ContextUse

namespace Context

/-- The last interval to which a variable was bound, or else the given one. -/
def lastBinding (past : List (ContextUse α)) (unbound : Interval α) (v : Variable) : Interval α :=
  (past.filterMap (·.binding? v)).getLast?.getD unbound

/-- The greatest number of slots that was asked for, the given one included. -/
def slotsAsked (past : List (ContextUse α)) (capacity : Nat) : Nat :=
  (past.map ContextUse.slots).foldl max capacity

theorem lastBinding_cons (use : ContextUse α) (past : List (ContextUse α)) (unbound : Interval α)
    (v : Variable) :
    lastBinding (use :: past) unbound v = lastBinding past ((use.binding? v).getD unbound) v := by
  rw [lastBinding, lastBinding, List.filterMap_cons]
  cases use.binding? v with
  | none => rfl
  | some a => rw [List.getLast?_cons, Option.getD_some, Option.getD_some]

end Context

/-! ## What a use leaves -/

variable [Scalar α]

namespace ContextUse

/-- The context that a use leaves, whether a run ends in a value or in a fault. -/
def apply (c : Context α) : ContextUse α → Context α
  | assign v a => c.assign v a
  | reset capacity => c.reset capacity
  | execute p => p.execute.after c
  | executeOver p x y => (p.executeOver x y).after c

theorem lookup_apply (c : Context α) (use : ContextUse α) (v : Variable) :
    (use.apply c).lookup v = (use.binding? v).getD (c.lookup v) := by
  cases use with
  | assign w a =>
    rw [apply, Context.lookup_assign, binding?]
    split <;> rfl
  | reset capacity => rfl
  | execute p => rw [apply, Program.lookup_after_execute, binding?, Option.getD_none]
  | executeOver p x y =>
    rw [apply, Program.lookup_after_executeOver, binding?]
    by_cases hx : v = .x
    · rw [if_pos hx, if_neg (by rw [hx]; decide), if_pos hx, Option.getD_some]
    · rw [if_neg hx, if_neg hx]
      split <;> rfl

theorem capacity_apply (c : Context α) (use : ContextUse α) :
    (use.apply c).capacity = max c.capacity use.slots := by
  cases use with
  | assign w a => exact (Nat.max_zero _).symm
  | reset capacity => exact Program.capacity_reset c capacity
  | execute p => exact Program.capacity_after_execute p c
  | executeOver p x y => exact Program.capacity_after_executeOver p c x y

end ContextUse

namespace Context

/-- The context that is left after uses, in order. -/
def afterUses (c : Context α) (past : List (ContextUse α)) : Context α :=
  past.foldl ContextUse.apply c

/-- A new context in which the variables have the given bindings. -/
def fresh (capacity : Nat) (vars : Variable → Interval α) : Context α :=
  { new capacity with bindings := .ofFn fun i ↦ vars ⟨i⟩ }

theorem lookup_fresh (capacity : Nat) (vars : Variable → Interval α) :
    (fresh capacity vars).lookup = vars := by
  funext v
  change (Vector.ofFn fun i ↦ vars ⟨i⟩)[v.index.val] = vars v
  rw [Vector.getElem_ofFn]

theorem capacity_fresh (capacity : Nat) (vars : Variable → Interval α) :
    (fresh capacity vars).capacity = capacity :=
  Array.size_replicate

/-- By induction on the past: each use replaces the bindings that it changes. -/
@[simp] theorem lookup_afterUses (c : Context α) (past : List (ContextUse α)) (v : Variable) :
    (c.afterUses past).lookup v = lastBinding past (c.lookup v) v := by
  induction past generalizing c with
  | nil => rfl
  | cons use past ih =>
    rw [lastBinding_cons, ← ContextUse.lookup_apply]
    exact ih (use.apply c)

theorem capacity_afterUses (c : Context α) (past : List (ContextUse α)) :
    (c.afterUses past).capacity = slotsAsked past c.capacity := by
  induction past generalizing c with
  | nil => rfl
  | cons use past ih =>
    rw [slotsAsked, List.map_cons, List.foldl_cons, ← ContextUse.capacity_apply]
    exact ih (use.apply c)

end Context

/-! ## The next run -/

namespace Program

theorem outcome_ofPlan_congr (e : Expr α) (plan : Plan α) {c c' : Context α}
    (h : c.lookup = c'.lookup) :
    (ofPlan e plan).execute.outcome c = (ofPlan e plan).execute.outcome c' := by
  rw [outcome_ofPlan, outcome_ofPlan, h]

open Context

/-- **A context carries its bindings and its capacity, and nothing else.** After any past, faulting
runs included, every program returns what it returns in a new context with the last bindings and as
many slots as were ever asked for. A new context binds every variable to zero; runs change no
binding, save that a run over a rectangle binds the coordinates. To a compiled program the number of
slots makes no difference either. -/
theorem context_carries_bindings_and_capacity (c : Context α) (past : List (ContextUse α)) :
    (∀ p : Program α, p.execute.outcome (c.afterUses past) = p.execute.outcome
        (fresh (c.afterUses past).capacity fun v ↦ lastBinding past (c.lookup v) v)) ∧
      (c.afterUses past).capacity = slotsAsked past c.capacity ∧
      (∀ capacity v, (new capacity : Context α).lookup v = .point 0) ∧
      (∀ (p : Program α) (v : Variable),
        (p.execute.after (c.afterUses past)).lookup v = (c.afterUses past).lookup v) ∧
      (∀ (p : Program α) (x y : Interval α) (v : Variable),
        ((p.executeOver x y).after (c.afterUses past)).lookup v
          = if v = .y then y else if v = .x then x else (c.afterUses past).lookup v) ∧
      ∀ (e : Expr α) (capacity : Nat),
        let c' : Context α := fresh capacity fun v ↦ lastBinding past (c.lookup v) v
        (compile e).execute.outcome (c.afterUses past) = (compile e).execute.outcome c' ∧
          (compileDirect e).execute.outcome (c.afterUses past)
            = (compileDirect e).execute.outcome c' := by
  have hlookup : ∀ capacity, (c.afterUses past).lookup
      = (fresh capacity fun v ↦ lastBinding past (c.lookup v) v : Context α).lookup := by
    intro capacity
    rw [lookup_fresh]
    exact funext (lookup_afterUses c past)
  refine ⟨fun p ↦ ?_, capacity_afterUses c past, lookup_new, fun p v ↦ ?_,
    fun p x y v ↦ lookup_after_executeOver p _ x y v, fun e capacity ↦ ⟨?_, ?_⟩⟩
  · exact outcome_execute_congr p (hlookup _) (capacity_fresh _ _).symm
  · rw [lookup_after_execute]
  · exact outcome_ofPlan_congr e _ (hlookup capacity)
  · exact outcome_ofPlan_congr e _ (hlookup capacity)

end Program

end ImplicitPlot
