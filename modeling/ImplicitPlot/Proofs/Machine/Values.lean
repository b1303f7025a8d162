import ImplicitPlot.Machine.Execute

/-!
# The machine on lists of values

The stack of a context is a row of slots that is never cleared. What a program computes depends
only on the values below the height, and those form a list. This file runs instructions on such
lists, `Program.runValues`, and proves that a run in a context follows the run on its list of
values: the same values remain, or the same fault arises.

The capacity of the stack is a parameter of the list machine, since a full stack is one of the
faults. Neither the bindings nor the capacity change while instructions run, so `Context.SameFrame`
holds between the contexts before and after every run, also one that faults half-way through.
-/

namespace ImplicitPlot

/-! ## The values on a stack -/

namespace Stack

variable {β : Type}

@[simp] theorem length_toList (s : Stack β) : s.toList.length = s.height := by
  rw [toList, List.length_reverse, List.length_take, Array.length_toList,
    Nat.min_eq_left s.height_le]

/-- The list is read downwards: its elements are the slots below the height, the last one first. -/
theorem getElem?_toList (s : Stack β) {i : Nat} (h : i < s.height) :
    s.toList[i]? = s.slots[s.height - 1 - i]? := by
  have hle := s.height_le
  have hlen : (s.slots.toList.take s.height).length = s.height := by
    rw [List.length_take, Array.length_toList, Nat.min_eq_left hle]
  rw [toList, List.getElem?_reverse (by rw [hlen]; exact h), hlen,
    List.getElem?_take_of_lt (by omega), Array.getElem?_toList]

@[simp] theorem toList_reset (s : Stack β) (capacity : Nat) (filler : β) :
    (s.reset capacity filler).toList = [] := by
  rw [← List.length_eq_zero_iff, length_toList]
  rfl

@[simp] theorem capacity_reset (s : Stack β) (capacity : Nat) (filler : β) :
    (s.reset capacity filler).capacity = max s.capacity capacity := by
  simp only [Stack.capacity, reset, Array.size_append, Array.size_replicate]
  omega

theorem toList_push (s : Stack β) (b : β) (h : s.height < s.capacity) :
    (s.push b h).toList = b :: s.toList := by
  refine List.ext_getElem? fun i ↦ ?_
  by_cases hi : i < s.height + 1
  · rw [getElem?_toList (s.push b h) hi]
    cases i with
    | zero => simp [push]
    | succ i =>
      rw [List.getElem?_cons_succ, getElem?_toList s (by omega)]
      simp only [push]
      rw [Array.getElem?_set_ne _ (by omega)]
      congr 1
      omega
  · rw [List.getElem?_eq_none (by rw [length_toList]; simp only [push]; omega),
      List.getElem?_eq_none (by rw [List.length_cons, length_toList]; omega)]

theorem toList_eq_top_cons (s : Stack β) (h : 0 < s.height) :
    s.toList = s.top h :: s.drop.toList := by
  have hle := s.height_le
  refine List.ext_getElem? fun i ↦ ?_
  by_cases hi : i < s.height
  · rw [getElem?_toList s hi]
    cases i with
    | zero => simp [top]
    | succ i =>
      rw [List.getElem?_cons_succ, getElem?_toList s.drop (by simp only [drop]; omega)]
      simp only [drop]
      congr 1
      omega
  · rw [List.getElem?_eq_none (by rw [length_toList]; omega),
      List.getElem?_eq_none (by rw [List.length_cons, length_toList]; simp only [drop]; omega)]

theorem toList_swap (s : Stack β) (h : 2 ≤ s.height) {a b : β} {bs : List β}
    (hs : s.toList = b :: a :: bs) : (s.swap h).toList = a :: b :: bs := by
  have hle := s.height_le
  have hslot : ∀ i < s.height, s.slots[s.height - 1 - i]? = (b :: a :: bs)[i]? := by
    intro i hi
    rw [← hs, getElem?_toList s hi]
  have hb : some s.slots[s.height - 1] = some b := by
    rw [← Array.getElem?_eq_getElem]
    exact hslot 0 (by omega)
  have ha : some s.slots[s.height - 2] = some a := by
    rw [← Array.getElem?_eq_getElem]
    exact hslot 1 (by omega)
  -- Only the two slots at the top change places.
  refine List.ext_getElem? fun i ↦ ?_
  by_cases hi : i < s.height
  · rw [getElem?_toList (s.swap h) hi]
    simp only [swap]
    rw [Array.getElem?_swap]
    match i with
    | 0 => rw [if_neg (by omega), if_pos (by omega), ha, List.getElem?_cons_zero]
    | 1 =>
      rw [if_pos (by omega), hb, List.getElem?_cons_succ, List.getElem?_cons_zero]
    | i + 2 =>
      rw [if_neg (by omega), if_neg (by omega), hslot (i + 2) hi]
      simp only [List.getElem?_cons_succ]
  · have hlen : bs.length + 2 = s.height := by rw [← length_toList s, hs]; rfl
    rw [List.getElem?_eq_none (by rw [length_toList]; simp only [swap]; omega),
      List.getElem?_eq_none (by simp only [List.length_cons]; omega)]

end Stack

/-! ## The frame of a run -/

variable {α : Type}

/-- The two contexts agree in all that a run leaves as it was. -/
structure Context.SameFrame (c c' : Context α) : Prop where
  /-- Every variable is bound to the same interval. -/
  bindings : c'.bindings = c.bindings
  /-- The stack has the same number of slots. -/
  capacity : c'.capacity = c.capacity

namespace Context.SameFrame

variable {c c' c'' : Context α}

theorem refl (c : Context α) : c.SameFrame c := ⟨rfl, rfl⟩

theorem trans (h : c.SameFrame c') (h' : c'.SameFrame c'') : c.SameFrame c'' :=
  ⟨h'.bindings.trans h.bindings, h'.capacity.trans h.capacity⟩

theorem lookup (h : c.SameFrame c') : c'.lookup = c.lookup := by
  funext v
  simp only [Context.lookup, h.bindings]

end Context.SameFrame

/-! ## Evaluations in sequence -/

namespace Evaluation

variable {β γ : Type} {c c' : Context α}

/-- What an evaluation returns, without the context that it leaves. -/
def outcome (x : Evaluation α β) (c : Context α) : Except (Fault α) β :=
  match x c with
  | .ok b _ => .ok b
  | .error f _ => .error f

/-- The context that an evaluation leaves. -/
def after (x : Evaluation α β) (c : Context α) : Context α :=
  match x c with
  | .ok _ c' | .error _ c' => c'

theorem bind_ok {x : Evaluation α β} {b : β} (h : x c = .ok b c') (k : β → Evaluation α γ) :
    (x >>= k) c = k b c' := by
  change EStateM.bind x k c = _
  rw [EStateM.bind, h]

theorem bind_error {x : Evaluation α β} {f : Fault α} (h : x c = .error f c')
    (k : β → Evaluation α γ) : (x >>= k) c = .error f c' := by
  change EStateM.bind x k c = _
  rw [EStateM.bind, h]

theorem pop_nil (h : c.stack.toList = []) : pop c = .error .stackUnderflow c := by
  rw [← List.length_eq_zero_iff, Stack.length_toList] at h
  rw [pop, dif_neg (by omega)]

theorem pop_cons {a : Interval α} {s : List (Interval α)} (h : c.stack.toList = a :: s) :
    ∃ c', pop c = .ok a c' ∧ c.SameFrame c' ∧ c'.stack.toList = s := by
  have hpos : 0 < c.stack.height := by
    rw [← Stack.length_toList, h, List.length_cons]
    omega
  rw [Stack.toList_eq_top_cons _ hpos, List.cons.injEq] at h
  refine ⟨{ c with stack := c.stack.drop }, ?_, ⟨rfl, rfl⟩, h.2⟩
  rw [pop, dif_pos hpos, h.1]

theorem top_cons {a : Interval α} {s : List (Interval α)} (h : c.stack.toList = a :: s) :
    top c = .ok a c := by
  have hpos : 0 < c.stack.height := by
    rw [← Stack.length_toList, h, List.length_cons]
    omega
  rw [Stack.toList_eq_top_cons _ hpos, List.cons.injEq] at h
  rw [top, dif_pos hpos, h.1]

theorem top_nil (h : c.stack.toList = []) : top c = .error .stackUnderflow c := by
  rw [← List.length_eq_zero_iff, Stack.length_toList] at h
  rw [top, dif_neg (by omega)]

end Evaluation

/-! ## A run follows the run on its values -/

/-- Puts a value on a list that may not grow beyond the capacity. -/
def pushValue (capacity : Nat) (a : Interval α) (s : List (Interval α)) :
    Except (Fault α) (List (Interval α)) :=
  if s.length < capacity then .ok (a :: s) else .error (.stackOverflow capacity)

namespace Evaluation

/-- What an evaluation does from a context on is what happens to the values: they are the values of
the context that it leaves, or the fault is the same, and the frame stays as it was. -/
def Follows (c : Context α) :
    EStateM.Result (Fault α) (Context α) Unit → Except (Fault α) (List (Interval α)) → Prop
  | .ok _ c', .ok s => c.SameFrame c' ∧ c'.stack.toList = s
  | .error f c', .error g => c.SameFrame c' ∧ f = g
  | _, _ => False

variable {c c' : Context α}

theorem Follows.of_sameFrame (hc : c.SameFrame c') {r : EStateM.Result (Fault α) (Context α) Unit}
    {y : Except (Fault α) (List (Interval α))} (h : Follows c' r y) : Follows c r y := by
  match r, y, h with
  | .ok _ _, .ok _, h => exact ⟨hc.trans h.1, h.2⟩
  | .error _ _, .error _, h => exact ⟨hc.trans h.1, h.2⟩

/-- An evaluation that follows the values either leaves them or ends in their fault. -/
theorem Follows.ok_or_error {r : EStateM.Result (Fault α) (Context α) Unit}
    {y : Except (Fault α) (List (Interval α))} (h : Follows c r y) :
    (∃ c', r = .ok () c' ∧ y = .ok c'.stack.toList ∧ c.SameFrame c') ∨
      ∃ f c', r = .error f c' ∧ y = .error f ∧ c.SameFrame c' := by
  match r, y, h with
  | .ok () c', .ok _, ⟨hframe, rfl⟩ => exact .inl ⟨c', rfl, rfl, hframe⟩
  | .error f c', .error _, ⟨hframe, rfl⟩ => exact .inr ⟨f, c', rfl, rfl, hframe⟩

theorem follows_push (a : Interval α) (c : Context α) :
    Follows c (push a c) (pushValue c.capacity a c.stack.toList) := by
  rw [push, pushValue, Stack.length_toList]
  by_cases h : c.stack.height < c.stack.capacity
  · rw [dif_pos h, if_pos (by exact h)]
    refine ⟨⟨rfl, ?_⟩, Stack.toList_push _ _ _⟩
    simp only [Context.capacity, Stack.push, Stack.capacity, Array.size_set]
  · rw [dif_neg h, if_neg (by exact h)]
    exact ⟨.refl c, rfl⟩

private theorem follows_push_of_room (a : Interval α) (h : c.stack.height < c.capacity) :
    Follows c (push a c) (.ok (a :: c.stack.toList)) := by
  have hpush := follows_push a c
  rwa [pushValue, Stack.length_toList, if_pos h] at hpush

private theorem follows_swap (c : Context α) :
    Follows c (swap c) (match c.stack.toList with
      | b :: a :: s => .ok (a :: b :: s)
      | _ => .error .stackUnderflow) := by
  by_cases h : 2 ≤ c.stack.height
  · rw [swap, dif_pos h]
    match hs : c.stack.toList with
    | b :: a :: s =>
      refine ⟨⟨rfl, ?_⟩, Stack.toList_swap _ h hs⟩
      simp only [Context.capacity, Stack.swap, Stack.capacity, Array.size_swap]
    | [_] => rw [← Stack.length_toList, hs, List.length_singleton] at h; omega
    | [] => rw [← Stack.length_toList, hs, List.length_nil] at h; omega
  · rw [swap, dif_neg h]
    match hs : c.stack.toList with
    | b :: a :: s => rw [← Stack.length_toList, hs] at h; simp at h
    | [_] | [] => exact ⟨.refl c, rfl⟩

theorem follows_lift_push (r : Except (Fault α) (Interval α)) (h : c.stack.height < c.capacity) :
    Follows c ((lift r >>= push) c) (do return (← r) :: c.stack.toList) := by
  cases r with
  | error f =>
    have hlift : (lift (.error f) >>= push) c = .error f c := bind_error rfl push
    rw [hlift]
    exact ⟨.refl c, rfl⟩
  | ok a =>
    have hlift : (lift (.ok a) >>= push) c = push a c := bind_ok rfl push
    rw [hlift]
    exact follows_push_of_room a h

theorem room_of_cons (hframe : c.SameFrame c') {a : Interval α} {s : List (Interval α)}
    (hs : c.stack.toList = a :: s) (hlen : c'.stack.toList.length ≤ s.length) :
    c'.stack.height < c'.capacity := by
  have hle := c.stack.height_le
  rw [← Stack.length_toList, hs, List.length_cons] at hle
  rw [Stack.length_toList] at hlen
  rw [hframe.capacity, Context.capacity, Stack.capacity]
  omega

end Evaluation

namespace Program

/-- The one value that has to be left. -/
def onlyValue : List (Interval α) → Except (Fault α) (Interval α)
  | [a] => .ok a
  | s => .error (.badResult s.length)

private theorem outcome_result (c : Context α) : result.outcome c = onlyValue c.stack.toList := by
  rw [Evaluation.outcome, result]
  by_cases h : c.stack.height = 1
  · rw [if_pos h]
    rw [← Stack.length_toList, List.length_eq_one_iff] at h
    obtain ⟨a, ha⟩ := h
    obtain ⟨c', hpop, -, -⟩ := Evaluation.pop_cons ha
    rw [hpop, ha]
    rfl
  · rw [if_neg h]
    rw [← Stack.length_toList] at h ⊢
    match hs : c.stack.toList with
    | [_] => rw [hs] at h; exact absurd rfl h
    | [] | _ :: _ :: _ => rfl

private theorem sameFrame_result (c : Context α) : c.SameFrame (result.after c) := by
  rw [Evaluation.after, result]
  by_cases h : c.stack.height = 1
  · rw [if_pos h]
    rw [← Stack.length_toList, List.length_eq_one_iff] at h
    obtain ⟨a, ha⟩ := h
    obtain ⟨c', hpop, hframe, -⟩ := Evaluation.pop_cons ha
    rw [hpop]
    exact hframe
  · rw [if_neg h]
    exact .refl c

end Program

variable [Scalar α]

/-- The effect of an instruction on the values on the stack, the top one first. -/
def Instruction.onValues (vars : Variable → Interval α) (capacity : Nat) :
    Instruction α → List (Interval α) → Except (Fault α) (List (Interval α))
  | pushConst c, s => pushValue capacity (.point c) s
  | pushVar v, s => pushValue capacity (vars v) s
  | unary op, a :: s => do return (← op.onInterval a) :: s
  | binary op, b :: a :: s => do return (← op.onIntervals a b) :: s
  | dup, a :: s => pushValue capacity a (a :: s)
  | swap, b :: a :: s => .ok (a :: b :: s)
  | _, _ => .error .stackUnderflow

namespace Program

/-- The effects of instructions on the values on the stack, in order. -/
def runValues (vars : Variable → Interval α) (capacity : Nat) :
    List (Instruction α) → List (Interval α) → Except (Fault α) (List (Interval α))
  | [], s => .ok s
  | i :: is, s => do runValues vars capacity is (← i.onValues vars capacity s)

end Program

namespace Evaluation

variable {c c' : Context α}

theorem follows_step (i : Instruction α) (c : Context α) :
    Follows c (i.step c) (i.onValues c.lookup c.capacity c.stack.toList) := by
  cases i with
  | pushConst k => exact follows_push _ c
  | pushVar v => exact follows_push _ c
  | unary op =>
    rw [Instruction.step]
    cases hs : c.stack.toList with
    | nil =>
      rw [bind_error (pop_nil hs)]
      exact ⟨.refl c, rfl⟩
    | cons a s =>
      obtain ⟨c', hpop, hframe, rfl⟩ := pop_cons hs
      rw [bind_ok hpop]
      exact (follows_lift_push _ (room_of_cons hframe hs (Nat.le_refl _))).of_sameFrame hframe
  | binary op =>
    rw [Instruction.step]
    match hs : c.stack.toList with
    | [] =>
      rw [bind_error (pop_nil hs)]
      exact ⟨.refl c, rfl⟩
    | [b] =>
      obtain ⟨c', hpop, hframe, hs'⟩ := pop_cons hs
      rw [bind_ok hpop, bind_error (pop_nil hs')]
      exact ⟨hframe, rfl⟩
    | b :: a :: s =>
      -- The second operand is on top, so it is the first one to be taken off.
      obtain ⟨c', hpop, hframe, hs'⟩ := pop_cons hs
      obtain ⟨c'', hpop', hframe', rfl⟩ := pop_cons hs'
      rw [bind_ok hpop, bind_ok hpop']
      have hroom := room_of_cons (hframe.trans hframe') hs (by rw [List.length_cons]; omega)
      exact (follows_lift_push _ hroom).of_sameFrame (hframe.trans hframe')
  | dup =>
    rw [Instruction.step]
    cases hs : c.stack.toList with
    | nil =>
      rw [bind_error (top_nil hs)]
      exact ⟨.refl c, rfl⟩
    | cons a s =>
      rw [bind_ok (top_cons hs)]
      have hpush := follows_push a c
      rwa [hs] at hpush
  | swap =>
    have hswap := follows_swap c
    match hs : c.stack.toList with
    | b :: a :: s => rwa [hs] at hswap
    | [_] | [] => rwa [hs] at hswap

/-- **The run follows.** By induction on the instructions, each of which follows its effect on the
values and keeps the frame in which the next one runs. -/
theorem follows_steps (is : List (Instruction α)) (c : Context α) :
    Follows c (Program.steps is c) (Program.runValues c.lookup c.capacity is c.stack.toList) := by
  induction is generalizing c with
  | nil => exact ⟨.refl c, rfl⟩
  | cons i is ih =>
    rw [Program.steps, Program.runValues]
    obtain ⟨c', hi, hv, hframe⟩ | ⟨f, c', hi, hv, hframe⟩ := (follows_step i c).ok_or_error
    · rw [bind_ok hi, hv]
      have hrest := ih c'
      rw [hframe.lookup, hframe.capacity] at hrest
      exact hrest.of_sameFrame hframe
    · rw [bind_error hi, hv]
      exact ⟨hframe, rfl⟩

end Evaluation

/-! ## Whole programs -/

namespace Program

variable (p : Program α) (c : Context α)

theorem execute_eq : p.execute c = (steps p.code >>= fun _ ↦ result) (c.reset p.stackSize) := rfl

@[simp] theorem capacity_reset (n : Nat) : (c.reset n).capacity = max c.capacity n :=
  Stack.capacity_reset _ _ _

theorem follows_steps_reset :
    Evaluation.Follows (c.reset p.stackSize) (steps p.code (c.reset p.stackSize))
      (runValues c.lookup (max c.capacity p.stackSize) p.code []) := by
  have h := Evaluation.follows_steps p.code (c.reset p.stackSize)
  have hnil : (c.reset p.stackSize).stack.toList = [] := Stack.toList_reset _ _ _
  rwa [capacity_reset, hnil] at h

/-- **What a program returns** is decided by the bindings and the number of slots: it is what
happens to an empty list of values. -/
theorem outcome_execute :
    p.execute.outcome c
      = runValues c.lookup (max c.capacity p.stackSize) p.code [] >>= onlyValue := by
  rw [Evaluation.outcome, execute_eq]
  obtain ⟨c', hr, hv, -⟩ | ⟨f, c', hr, hv, -⟩ := (follows_steps_reset p c).ok_or_error
  · rw [Evaluation.bind_ok hr, hv]
    exact outcome_result c'
  · rw [Evaluation.bind_error hr, hv]
    rfl

theorem sameFrame_execute : (c.reset p.stackSize).SameFrame (p.execute.after c) := by
  rw [Evaluation.after, execute_eq]
  obtain ⟨c', hr, -, hframe⟩ | ⟨f, c', hr, -, hframe⟩ := (follows_steps_reset p c).ok_or_error
  · rw [Evaluation.bind_ok hr]
    exact hframe.trans (sameFrame_result c')
  · rw [Evaluation.bind_error hr]
    exact hframe

@[simp] theorem bindings_after_execute : (p.execute.after c).bindings = c.bindings :=
  (sameFrame_execute p c).bindings

/-- A run gives the stack the slots that the program asks for. -/
@[simp] theorem capacity_after_execute :
    (p.execute.after c).capacity = max c.capacity p.stackSize := by
  rw [(sameFrame_execute p c).capacity, capacity_reset]

end Program

end ImplicitPlot
