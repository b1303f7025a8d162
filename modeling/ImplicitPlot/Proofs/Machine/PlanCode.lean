import ImplicitPlot.Machine.Plan
import ImplicitPlot.Proofs.Machine.Height

/-!
# The code of a plan

A plan has a value of its own, `Plan.value`, found by recursion on its shape, and its code computes
that value. Both facts about the code are stated in the middle of a program: whatever is on the
stack below, and whatever instructions follow, the code of a plan leaves the value of the plan on
top (`Plan.runValues_code`), and takes no more slots than `Plan.slots` says (`Plan.walk_code`).
-/

namespace ImplicitPlot

variable {α : Type}

/-! ## The slots that the code takes -/

namespace Plan

/-- The number of slots that the code of a plan fills at once. -/
def slots : Plan α → Nat
  | const _ | var _ => 1
  | unary _ a => a.slots
  | binary _ a b => max a.slots (1 + b.slots)
  | power a factors => max a.slots factors
  | absBefore _ a | absAfter _ a => max a.slots 2

theorem slots_pos (p : Plan α) : 0 < p.slots := by
  induction p with
  | const | var => exact Nat.one_pos
  | unary _ _ ih => exact ih
  | binary _ _ _ iha | power _ _ iha => exact Nat.lt_of_lt_of_le iha (Nat.le_max_left _ _)
  | absBefore _ _ ih | absAfter _ _ ih => exact Nat.lt_of_lt_of_le ih (Nat.le_max_left _ _)

/-- **The walk of a plan.** By induction on the plan: its code leaves one value more than it finds,
and takes none of the values that it finds. -/
theorem walk_code (p : Plan α) {limit : Nat} (h : Nat) (hle : h + p.slots ≤ limit) :
    Walk limit h p.code (h + 1) := by
  induction p generalizing h with
  | const c => exact .step (Nat.zero_le h) hle (.done _)
  | var v => exact .step (Nat.zero_le h) hle (.done _)
  | unary op a ih =>
    have hpos := a.slots_pos
    rw [slots] at hle
    exact (ih h hle).append (.unary op (Nat.succ_pos h) (by omega))
  | binary op a b iha ihb =>
    have hpos := b.slots_pos
    rw [slots] at hle
    have ha := iha h (by omega)
    have hb := ihb (h + 1) (by omega)
    exact (ha.append hb).append (.binary op (by omega))
  | power a factors ih =>
    have hpos := a.slots_pos
    rw [slots] at hle
    have ha := ih h (by omega)
    have habs : Walk limit (h + 1)
        (if factors % 2 = 0 then [.unary .abs] else [] : List (Instruction α)) (h + 1) :=
      .optional _ (.unary .abs (Nat.succ_pos h) (by omega))
    have hdup : Walk limit (h + 1) (List.replicate (factors - 1) (.dup : Instruction α))
        (h + 1 + (factors - 1)) :=
      .replicate_dup _ (Nat.succ_pos h) (by omega)
    have hmul : Walk limit (h + 1 + (factors - 1))
        (List.replicate (factors - 1) (.binary .mul : Instruction α)) (h + 1) :=
      .replicate_binary .mul _ (Nat.succ_pos h) (by omega)
    exact ((ha.append habs).append hdup).append hmul
  | absBefore op a ih =>
    rw [slots] at hle
    have ha := ih h (by omega)
    have hshare : Walk limit (h + 1) [(.dup : Instruction α), .unary .abs] (h + 2) :=
      (Walk.dup (Nat.succ_pos h) (by omega)).append (.unary .abs (Nat.succ_pos (h + 1)) (by omega))
    have hswap : Walk limit (h + 2)
        (if op = .sub then [.swap] else [] : List (Instruction α)) (h + 2) :=
      .optional _ (.swap (Nat.le_add_left 2 h) (by omega))
    exact ((ha.append hshare).append hswap).append (.binary op (by omega))
  | absAfter op a ih =>
    rw [slots] at hle
    have ha := ih h (by omega)
    have hshare : Walk limit (h + 1) [(.dup : Instruction α), .unary .abs] (h + 2) :=
      (Walk.dup (Nat.succ_pos h) (by omega)).append (.unary .abs (Nat.succ_pos (h + 1)) (by omega))
    exact ha.append (hshare.append (.binary op (by omega)))

end Plan

/-! ## The value that the code leaves -/

variable [Scalar α]

/-- The product of a value and a number of further copies of it, nested to the right. -/
def Interval.product (a : Interval α) : Nat → Except (Fault α) (Interval α)
  | 0 => .ok a
  | n + 1 => do a.mul (← a.product n)

namespace Interval

private theorem product_eq_error {a : Interval α} {k : Nat} {f : Fault α}
    (h : a.product k = .error f)
    (n : Nat) : a.product (k + n) = .error f := by
  induction n with
  | zero => exact h
  | succ n ih =>
    rw [← Nat.add_assoc, product, ih]
    rfl

end Interval

namespace Plan

/-- The value of a plan: operands first, from left to right, and a shared value once. A magnitude
in front of its value is brought there only where the order counts. -/
def value (vars : Variable → Interval α) : Plan α → Except (Fault α) (Interval α)
  | const c => .ok (.point c)
  | var v => .ok (vars v)
  | unary op a => do
    let x ← a.value vars
    op.onInterval x
  | binary op a b => do
    let x ← a.value vars
    let y ← b.value vars
    op.onIntervals x y
  | power a factors => do
    let x ← a.value vars
    let y ← if factors % 2 = 0 then x.abs else .ok x
    y.product (factors - 1)
  | absBefore op a => do
    let x ← a.value vars
    let y ← x.abs
    if op = .sub then op.onIntervals y x else op.onIntervals x y
  | absAfter op a => do
    let x ← a.value vars
    let y ← x.abs
    op.onIntervals x y

private theorem value_power (vars : Variable → Interval α) (a : Plan α) (factors : Nat) :
    (power a factors).value vars = a.value vars >>= fun x ↦
      (if factors % 2 = 0 then x.abs else .ok x) >>= fun y ↦ y.product (factors - 1) := by
  rw [value]
  refine bind_congr fun x ↦ ?_
  split <;> rfl

end Plan

open Program

section Runs

variable {vars : Variable → Interval α} {capacity : Nat} {is rest : List (Instruction α)}
  {s : List (Interval α)}

theorem runValues_unary (op : UnaryOp) (a : Interval α) :
    runValues vars capacity (.unary op :: rest) (a :: s)
      = op.onInterval a >>= fun b ↦ runValues vars capacity rest (b :: s) := by
  rw [runValues, Instruction.onValues]
  cases op.onInterval a <;> rfl

theorem runValues_binary (op : BinaryOp) (a b : Interval α) :
    runValues vars capacity (.binary op :: rest) (b :: a :: s)
      = op.onIntervals a b >>= fun d ↦ runValues vars capacity rest (d :: s) := by
  rw [runValues, Instruction.onValues]
  cases op.onIntervals a b <;> rfl

theorem runValues_dup {a : Interval α} (h : s.length + 1 < capacity) :
    runValues vars capacity (.dup :: rest) (a :: s)
      = runValues vars capacity rest (a :: a :: s) := by
  have hroom : (a :: s).length < capacity := h
  rw [runValues, Instruction.onValues, pushValue, if_pos hroom]
  rfl

private theorem runValues_replicate_dup (n : Nat) (a : Interval α)
    (h : s.length + 1 + n ≤ capacity) :
    runValues vars capacity (List.replicate n .dup ++ rest) (a :: s)
      = runValues vars capacity rest (a :: (List.replicate n a ++ s)) := by
  induction n generalizing s with
  | zero => rfl
  | succ n ih =>
    rw [List.replicate_succ, List.cons_append, runValues_dup (by omega),
      ih (by rw [List.length_cons]; omega), List.append_cons, ← List.replicate_succ']

private theorem runValues_replicate_mul {a b : Interval α} {k : Nat} (hk : a.product k = .ok b)
    (n : Nat) :
    runValues vars capacity (List.replicate n (.binary .mul) ++ rest)
        (b :: (List.replicate n a ++ s))
      = a.product (k + n) >>= fun d ↦ runValues vars capacity rest (d :: s) := by
  induction n generalizing b k with
  | zero =>
    rw [Nat.add_zero, hk]
    rfl
  | succ n ih =>
    rw [List.replicate_succ, List.cons_append, List.replicate_succ, List.cons_append,
      runValues_binary]
    -- A multiplication turns the product on top into that of one more copy.
    have hnext : a.product (k + 1) = a.mul b := by
      rw [Interval.product, hk]
      rfl
    rw [← Nat.add_assoc, Nat.add_right_comm]
    cases hmul : a.mul b with
    | ok d => exact ((congrArg (· >>= _) hmul).trans (ih (hnext.trans hmul)))
    | error f =>
      rw [Interval.product_eq_error (hnext.trans hmul)]
      exact congrArg (· >>= _) hmul

/-! ### The shapes of code -/

private theorem runValues_pushConst (c : α) (h : s.length < capacity) :
    runValues vars capacity (.pushConst c :: rest) s
      = runValues vars capacity rest (.point c :: s) := by
  rw [runValues, Instruction.onValues, pushValue, if_pos h]
  rfl

private theorem runValues_pushVar (v : Variable) (h : s.length < capacity) :
    runValues vars capacity (.pushVar v :: rest) s
      = runValues vars capacity rest (vars v :: s) := by
  rw [runValues, Instruction.onValues, pushValue, if_pos h]
  rfl

/-- The base of an even power is replaced by its magnitude. -/
private theorem runValues_abs_of_even (factors : Nat) (a : Interval α) :
    runValues vars capacity ((if factors % 2 = 0 then [.unary .abs] else []) ++ rest) (a :: s)
      = (if factors % 2 = 0 then a.abs else .ok a) >>= fun b ↦
          runValues vars capacity rest (b :: s) := by
  by_cases heven : factors % 2 = 0
  · rw [if_pos heven, if_pos heven]
    exact runValues_unary .abs a
  · rw [if_neg heven, if_neg heven]
    rfl

private theorem runValues_product {n : Nat} (a : Interval α) (h : s.length + 1 + n ≤ capacity) :
    runValues vars capacity
        (List.replicate n .dup ++ (List.replicate n (.binary .mul) ++ rest)) (a :: s)
      = a.product n >>= fun b ↦ runValues vars capacity rest (b :: s) := by
  have hone : a.product 0 = .ok a := rfl
  rw [runValues_replicate_dup n a h, runValues_replicate_mul hone, Nat.zero_add]

theorem runValues_dup_abs (a : Interval α) (h : s.length + 1 < capacity) :
    runValues vars capacity ([.dup, .unary .abs] ++ rest) (a :: s)
      = a.abs >>= fun b ↦ runValues vars capacity rest (b :: a :: s) :=
  (runValues_dup h).trans (runValues_unary .abs a)

private theorem runValues_swap_binary (op : BinaryOp) (a b : Interval α) :
    runValues vars capacity ((if op = .sub then [.swap] else []) ++ ([.binary op] ++ rest))
        (b :: a :: s)
      = (if op = .sub then op.onIntervals b a else op.onIntervals a b) >>= fun d ↦
          runValues vars capacity rest (d :: s) := by
  by_cases hop : op = .sub
  · rw [if_pos hop, if_pos hop]
    exact runValues_binary op b a
  · rw [if_neg hop, if_neg hop]
    exact runValues_binary op a b

/-- **The code of a plan computes its value.** By induction on the plan, for all values below and
all instructions after: a run of the code goes on with the value of the plan on top, or ends in the
fault of that value. -/
theorem Plan.runValues_code (p : Plan α) (h : s.length + p.slots ≤ capacity) :
    runValues vars capacity (p.code ++ rest) s
      = p.value vars >>= fun x ↦ runValues vars capacity rest (x :: s) := by
  induction p generalizing rest s with
  | const c => exact runValues_pushConst c h
  | var v => exact runValues_pushVar v h
  | unary op a ih =>
    rw [code, List.append_assoc, ih h, value, bind_assoc]
    exact bind_congr fun x ↦ runValues_unary op x
  | binary op a b iha ihb =>
    rw [slots] at h
    rw [code, List.append_assoc, List.append_assoc, iha (by omega), value, bind_assoc]
    refine bind_congr fun x ↦ ?_
    rw [ihb (by rw [List.length_cons]; omega), bind_assoc]
    exact bind_congr fun y ↦ runValues_binary op x y
  | power a factors ih =>
    have hpos := a.slots_pos
    rw [slots] at h
    rw [code, List.append_assoc, List.append_assoc, List.append_assoc, ih (by omega), value_power,
      bind_assoc]
    refine bind_congr fun x ↦ ?_
    rw [runValues_abs_of_even, bind_assoc]
    exact bind_congr fun y ↦ runValues_product y (by omega)
  | absBefore op a ih =>
    rw [slots] at h
    rw [code, List.append_assoc, List.append_assoc, List.append_assoc, ih (by omega), value,
      bind_assoc]
    refine bind_congr fun x ↦ ?_
    rw [runValues_dup_abs x (by omega), bind_assoc]
    exact bind_congr fun y ↦ runValues_swap_binary op x y
  | absAfter op a ih =>
    rw [slots] at h
    rw [code, List.append_assoc, ih (by omega), value, bind_assoc]
    refine bind_congr fun x ↦ (runValues_dup_abs x (by omega)).trans ?_
    rw [bind_assoc]
    exact bind_congr fun y ↦ runValues_binary op x y

end Runs

end ImplicitPlot
