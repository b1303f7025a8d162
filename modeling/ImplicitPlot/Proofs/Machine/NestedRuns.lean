import Mathlib.Data.List.Forall2
import ImplicitPlot.Proofs.Interval.PowerInclusion
import ImplicitPlot.Proofs.Machine.Height
import ImplicitPlot.Proofs.Sequence

/-!
# Runs keep inclusions

Two runs of one program go side by side, the one over narrower intervals than the other. As long as
all values stay bounded, the stacks have the same height, and each interval on the one stack is
inside of its counterpart on the other one (`NestedValues`). One instruction keeps this, and it
succeeds on the narrower values if it succeeds on the wider ones (`exists_nested_onValues`); so does
a run, by induction on its instructions (`IntegralPowers.accompanied`).

Powers ask for more than narrower operands: both runs must have the same integer as the exponent.
What the instructions tell about this is `IntegralPowers`: an integral constant, or its negation, is
put on the stack right before the power.
-/

namespace ImplicitPlot

variable {α : Type} [Scalar α]

open Scalar

/-- The one interval is valid and inside of the other one, and the bounds of both are finite. -/
structure Interval.Nested (a a' : Interval α) : Prop where
  valid : a.Valid
  bounded : a.IsBounded
  bounded' : a'.IsBounded
  within : a.Within a'

/-- The values of the one stack are inside of those of the other one, one by one. -/
abbrev NestedValues (s s' : List (Interval α)) : Prop := List.Forall₂ Interval.Nested s s'

/-- All values have finite bounds. -/
abbrev BoundedValues (s : List (Interval α)) : Prop := ∀ a ∈ s, a.IsBounded

namespace Program

/-- No infinite value arises in a run, and none that is not a number: after any number of
instructions, all values on the stack have finite bounds. -/
def StaysBounded (p : Program α) (c : Context α) : Prop :=
  ∀ n, BoundedValues ((steps (p.code.take n)).after (c.reset p.stackSize)).stack.toList

/-- All instructions have been run after as many as there are. -/
instance (p : Program α) (c : Context α) : Decidable (p.StaysBounded c) :=
  decidable_of_iff (∀ n ≤ p.code.length,
      BoundedValues ((steps (p.code.take n)).after (c.reset p.stackSize)).stack.toList) <| by
    refine ⟨fun h n ↦ ?_, fun h n _ ↦ h n⟩
    rcases Nat.le_total n p.code.length with hle | hge
    · exact h n hle
    · have hall := h _ (Nat.le_refl _)
      rwa [List.take_length, ← List.take_of_length_le hge] at hall

/-- Every power is to an integral constant or to the negation of one. -/
inductive IntegralPowers : List (Instruction α) → Prop
  | nil : IntegralPowers []
  | step {i : Instruction α} {is : List (Instruction α)} (hi : i ≠ .binary .pow)
      (rest : IntegralPowers is) : IntegralPowers (i :: is)
  | power {k : α} {is : List (Instruction α)} (hk : round k = k) (rest : IntegralPowers is) :
      IntegralPowers (.pushConst k :: .binary .pow :: is)
  | powerNeg {k : α} {is : List (Instruction α)} (hk : round k = k) (rest : IntegralPowers is) :
      IntegralPowers (.pushConst k :: .unary .neg :: .binary .pow :: is)

/-! ## Runs on lists of values -/

variable {vars vars' : Variable → Interval α} {capacity : Nat} {i : Instruction α}
  {is js : List (Instruction α)} {s s' t t' : List (Interval α)}

theorem IntegralPowers.append (hi : IntegralPowers is) (hj : IntegralPowers js) :
    IntegralPowers (is ++ js) := by
  induction hi with
  | nil => exact hj
  | step hi _ ih => exact .step hi ih
  | power hk _ ih => exact .power hk ih
  | powerNeg hk _ ih => exact .powerNeg hk ih

theorem IntegralPowers.of_forall (h : ∀ i ∈ is, i ≠ .binary .pow) : IntegralPowers is := by
  induction is with
  | nil => exact .nil
  | cons i is ih =>
    obtain ⟨hi, his⟩ := List.forall_mem_cons.mp h
    exact .step hi (ih his)

/-- The values that a run leaves have finite bounds, after any number of instructions. -/
def RunsBounded (vars : Variable → Interval α) (capacity : Nat) (is : List (Instruction α))
    (s : List (Interval α)) : Prop :=
  ∀ n t, runValues vars capacity (is.take n) s = .ok t → BoundedValues t

theorem runValues_cons (hi : i.onValues vars capacity s = .ok t) :
    runValues vars capacity (i :: is) s = runValues vars capacity is t := by
  rw [runValues, hi]
  rfl

/-- The first instruction leaves bounded values, and the run goes on from them. -/
theorem RunsBounded.cons (h : RunsBounded vars capacity (i :: is) s)
    (hi : i.onValues vars capacity s = .ok t) :
    BoundedValues t ∧ RunsBounded vars capacity is t := by
  constructor
  · exact h 1 t (runValues_cons hi)
  · exact fun n u hu ↦ h (n + 1) u ((runValues_cons hi).trans hu)

/-! ## One instruction -/

theorem exists_nested_push {a a' : Interval α} (hs : NestedValues s s') (ha : a.Valid)
    (haa : a.IsBounded → a.Within a') (h : pushValue capacity a' s' = .ok t')
    (ht' : BoundedValues t') :
    ∃ t, pushValue capacity a s = .ok t ∧ (BoundedValues t → NestedValues t t') := by
  rw [pushValue] at h
  split at h
  next hroom =>
    cases h
    rw [pushValue, if_pos (hs.length_eq ▸ hroom)]
    obtain ⟨hba', -⟩ := List.forall_mem_cons.mp ht'
    refine ⟨_, rfl, fun ht ↦ ?_⟩
    obtain ⟨hba, -⟩ := List.forall_mem_cons.mp ht
    exact .cons ⟨ha, hba, hba', haa hba⟩ hs
  next => cases h

theorem exists_nested_result {x x' : Except (Fault α) (Interval α)} (hs : NestedValues s s')
    (hx : ∀ r', x' = .ok r' → r'.IsBounded →
      ∃ r, x = .ok r ∧ r.Valid ∧ (r.IsBounded → r.Within r'))
    (h : (do return (← x') :: s') = .ok t') (ht' : BoundedValues t') :
    ∃ t, (do return (← x) :: s : Except (Fault α) (List (Interval α))) = .ok t ∧
      (BoundedValues t → NestedValues t t') := by
  obtain ⟨r', hr', hrest⟩ := exists_of_bind_eq_ok h
  cases hrest
  obtain ⟨hbr', -⟩ := List.forall_mem_cons.mp ht'
  obtain ⟨r, hr, hvalid, hwithin⟩ := hx r' hr' hbr'
  refine ⟨r :: s, bind_eq_ok hr rfl, fun ht ↦ ?_⟩
  obtain ⟨hbr, -⟩ := List.forall_mem_cons.mp ht
  exact .cons ⟨hvalid, hbr, hbr', hwithin hbr⟩ hs

variable [Lawful α] [OrderPreserving α]

/-- **One instruction keeps inclusions.** If it succeeds on the wider values, it succeeds on the
narrower ones. A power has to find the same integral exponent on both stacks. -/
theorem exists_nested_onValues (hvars : ∀ v, (vars v).Valid)
    (hwithin : ∀ v, (vars v).Within (vars' v)) (hs : NestedValues s s')
    (hpow : i = .binary .pow → ∃ k, Interval.IsIntegral k ∧ s.head? = some (.point k) ∧
      s'.head? = some (.point k))
    (h : i.onValues vars' capacity s' = .ok t') (ht' : BoundedValues t') :
    ∃ t, i.onValues vars capacity s = .ok t ∧ (BoundedValues t → NestedValues t t') := by
  cases i with
  | pushConst c =>
    exact exists_nested_push hs (Interval.valid_point c)
      (fun hb ↦ ⟨le_refl_of_isFinite hb.1, le_refl_of_isFinite hb.2⟩) h ht'
  | pushVar v => exact exists_nested_push hs (hvars v) (fun _ ↦ hwithin v) h ht'
  | unary op =>
    cases hs with
    | nil => cases h
    | cons ha hs =>
      refine exists_nested_result hs (fun r' hr' hbr' ↦ ?_) h ht'
      obtain ⟨r, hr, hrr⟩ :=
        UnaryOp.exists_within ha.valid ha.bounded ha.bounded' ha.within hr' hbr'
      exact ⟨r, hr, UnaryOp.valid_of_onInterval ha.valid hr, hrr⟩
  | binary op =>
    cases hs with
    | nil => cases h
    | @cons b b' _ _ hb hs =>
      cases hs with
      | nil => cases h
      | cons ha hs =>
        refine exists_nested_result hs (fun r' hr' hbr' ↦ ?_) h ht'
        have hexp : op = .pow → ∃ k, Interval.IsIntegral k ∧ b = .point k ∧ b' = .point k := by
          rintro rfl
          obtain ⟨k, hk, htop, htop'⟩ := hpow rfl
          exact ⟨k, hk, Option.some.inj htop, Option.some.inj htop'⟩
        obtain ⟨r, hr, hrr⟩ := BinaryOp.exists_within ha.valid ha.bounded hb.valid hb.bounded
          ha.bounded' hb.bounded' ha.within hb.within hexp hr' hbr'
        exact ⟨r, hr, BinaryOp.valid_of_onIntervals hr, hrr⟩
  | dup =>
    cases hs with
    | nil => cases h
    | cons ha hs => exact exists_nested_push (.cons ha hs) ha.valid (fun _ ↦ ha.within) h ht'
  | swap =>
    cases hs with
    | nil => cases h
    | cons hb hs =>
      cases hs with
      | nil => cases h
      | cons ha hs =>
        cases h
        exact ⟨_, rfl, fun _ ↦ .cons ha (.cons hb hs)⟩

/-! ## Runs -/

/-- A run over the wider intervals that succeeds is accompanied by one over the narrower intervals,
if all values stay bounded. -/
def Accompanied (vars vars' : Variable → Interval α) (capacity : Nat) (is : List (Instruction α))
    (s s' : List (Interval α)) : Prop :=
  RunsBounded vars capacity is s → RunsBounded vars' capacity is s' →
    ∀ r', runValues vars' capacity is s' = .ok r' →
      ∃ r, runValues vars capacity is s = .ok r ∧ NestedValues r r'

theorem Accompanied.cons (hvars : ∀ v, (vars v).Valid)
    (hwithin : ∀ v, (vars v).Within (vars' v)) (hs : NestedValues s s')
    (hpow : i = .binary .pow → ∃ k, Interval.IsIntegral k ∧ s.head? = some (.point k) ∧
      s'.head? = some (.point k))
    (hrest : ∀ t t', NestedValues t t' → i.onValues vars capacity s = .ok t →
      i.onValues vars' capacity s' = .ok t' → Accompanied vars vars' capacity is t t') :
    Accompanied vars vars' capacity (i :: is) s s' := by
  intro hb hb' r' hr'
  obtain ⟨t', ht', hrun'⟩ := exists_of_bind_eq_ok hr'
  obtain ⟨hbt', hb'⟩ := hb'.cons ht'
  obtain ⟨t, ht, hnested⟩ := exists_nested_onValues hvars hwithin hs hpow ht' hbt'
  obtain ⟨hbt, hb⟩ := hb.cons ht
  obtain ⟨r, hr, hrr⟩ := hrest t t' (hnested hbt) ht ht' hb hb' r' hrun'
  exact ⟨r, (runValues_cons ht).trans hr, hrr⟩

omit [Lawful α] [OrderPreserving α] in
theorem eq_of_pushConst {k : α} (h : (Instruction.pushConst k).onValues vars capacity s = .ok t) :
    t = .point k :: s := by
  rw [Instruction.onValues, pushValue] at h
  split at h
  · cases h
    rfl
  · cases h

omit [OrderPreserving α] in
theorem exists_eq_of_neg_point {k : α}
    (h : (Instruction.unary .neg).onValues vars capacity (.point k :: s) = .ok t) :
    ∃ r, t = r :: s ∧ (r.IsBounded → r = .point (-k)) := by
  obtain ⟨r, hr, hrest⟩ := exists_of_bind_eq_ok h
  cases hrest
  exact ⟨r, rfl, Interval.eq_of_ofBounds hr⟩

/-- **A run keeps inclusions.** By induction on the instructions; a power goes together with the
instructions that put its exponent on the stack. -/
theorem IntegralPowers.accompanied (h : IntegralPowers is) (hvars : ∀ v, (vars v).Valid)
    (hwithin : ∀ v, (vars v).Within (vars' v)) (hs : NestedValues s s') :
    Accompanied vars vars' capacity is s s' := by
  induction h generalizing s s' with
  | nil =>
    rintro - - r' hr'
    cases hr'
    exact ⟨s, rfl, hs⟩
  | step hi _ ih =>
    exact .cons hvars hwithin hs (fun heq ↦ absurd heq hi) fun t t' htt _ _ ↦ ih htt
  | @power k is hk _ ih =>
    refine .cons hvars hwithin hs nofun fun t t' htt ht ht' ↦ ?_
    obtain rfl := eq_of_pushConst ht
    obtain rfl := eq_of_pushConst ht'
    obtain ⟨hnested, -⟩ := List.forall₂_cons.mp htt
    have hint : Interval.IsIntegral k := ⟨hnested.bounded.1, hk⟩
    exact .cons hvars hwithin htt (fun _ ↦ ⟨k, hint, rfl, rfl⟩) fun u u' huu _ _ ↦ ih huu
  | @powerNeg k is hk _ ih =>
    refine .cons hvars hwithin hs nofun fun t t' htt ht ht' ↦ ?_
    obtain rfl := eq_of_pushConst ht
    obtain rfl := eq_of_pushConst ht'
    refine .cons hvars hwithin htt nofun fun u u' huu hu hu' ↦ ?_
    obtain ⟨r, rfl, hr⟩ := exists_eq_of_neg_point hu
    obtain ⟨r', rfl, hr'⟩ := exists_eq_of_neg_point hu'
    obtain ⟨hnested, -⟩ := List.forall₂_cons.mp huu
    obtain rfl := hr hnested.bounded
    obtain rfl := hr' hnested.bounded'
    have hint : Interval.IsIntegral (-k) :=
      ⟨hnested.bounded.1, (Lawful.round_neg k).trans (congrArg (-·) hk)⟩
    exact .cons hvars hwithin huu (fun _ ↦ ⟨-k, hint, rfl, rfl⟩) fun w w' hww _ _ ↦ ih hww

/-! ## Programs -/

section Programs

variable {p : Program α} {c c' : Context α}

omit [Lawful α] [OrderPreserving α] in
theorem StaysBounded.runsBounded (h : p.StaysBounded c) :
    RunsBounded c.lookup (max c.capacity p.stackSize) p.code [] := by
  intro n t ht
  have hsteps := follows_steps_reset ⟨p.code.take n, p.stackSize⟩ c
  obtain ⟨d, hr, hv, -⟩ | ⟨f, d, -, hv, -⟩ := hsteps.ok_or_error
  · cases hv.symm.trans ht
    have hn := h n
    rwa [Evaluation.after, hr] at hn
  · cases hv.symm.trans ht

omit [Lawful α] [OrderPreserving α] in
theorem WellFormed.runsBounded_congr {capacity' : Nat} (hp : p.WellFormed)
    (h : RunsBounded vars capacity p.code []) (hle : p.stackSize ≤ capacity)
    (hle' : p.stackSize ≤ capacity') : RunsBounded vars capacity' p.code [] := by
  intro n t ht
  obtain ⟨height, hw⟩ := hp.take n
  rw [hw.runValues_eq hle' hle rfl] at ht
  exact h n t ht

/-- **Narrower bindings give a narrower value.** The two contexts may have different numbers of
slots. -/
theorem exists_within (hp : p.WellFormed) (hpow : IntegralPowers p.code)
    (hvalid : ∀ v, (c.lookup v).Valid) (hwithin : ∀ v, (c.lookup v).Within (c'.lookup v))
    (hb : p.StaysBounded c) (hb' : p.StaysBounded c') {J : Interval α}
    (h : p.execute.outcome c' = .ok J) :
    ∃ I, p.execute.outcome c = .ok I ∧ I.Within J := by
  have hle : p.stackSize ≤ max c.capacity p.stackSize := Nat.le_max_right _ _
  have hle' : p.stackSize ≤ max c'.capacity p.stackSize := Nat.le_max_right _ _
  rw [outcome_execute, hp.runValues_eq hle' hle rfl] at h
  obtain ⟨r', hr', hJ⟩ := exists_of_bind_eq_ok h
  obtain ⟨r, hr, hrr⟩ := hpow.accompanied hvalid hwithin .nil hb.runsBounded
    (hp.runsBounded_congr hb'.runsBounded hle' hle) r' hr'
  cases hrr with
  | nil => cases hJ
  | @cons I J' _ _ hIJ hrest =>
    cases hrest with
    | nil =>
      cases hJ
      exact ⟨I, (outcome_execute p c).trans (bind_eq_ok hr rfl), hIJ.within⟩
    | cons => cases hJ

end Programs

end Program

end ImplicitPlot
