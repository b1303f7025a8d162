import ImplicitPlot.Proofs.Formula.SharingInclusion
import ImplicitPlot.Proofs.Machine.NestedRuns
import ImplicitPlot.Proofs.Plot.EmptyPixels

/-!
# Narrower bindings give narrower values

A program of a formula, run with narrower bindings, gives a narrower interval, and it has no fault
that it does not have with the wider ones. Runs keep inclusions as long as every power is to an
integral constant or the negation of one (`Program.exists_within`). What remains is to see that both
compilers leave the exponents of a formula where they are: no rewriting comes between an exponent
and its power.

A pixel of a finer picture is such a rectangle inside of a larger one. Where the larger one is
empty, the smaller one is empty as well.
-/

namespace ImplicitPlot

variable {α : Type} [Scalar α]

open Scalar

/-! ## The powers in the code of a plan -/

theorem Expr.IsIntegralExponent.exists_eq {e : Expr α} (he : e.IsIntegralExponent) :
    ∃ c, Scalar.round c = c ∧ (e = const c ∨ e = unary .neg (const c)) := by
  unfold IsIntegralExponent at he
  split at he
  · exact ⟨_, he, .inl rfl⟩
  · exact ⟨_, he, .inr rfl⟩
  · exact he.elim

namespace Plan

open Program

variable {a b : Plan α} {op : BinaryOp} {n : Nat}

theorem integralPowers_unary (op : UnaryOp) (ha : IntegralPowers a.code) :
    IntegralPowers (unary op a).code :=
  ha.append (.step nofun .nil)

theorem integralPowers_binary (hop : op ≠ .pow) (ha : IntegralPowers a.code)
    (hb : IntegralPowers b.code) : IntegralPowers (binary op a b).code :=
  (ha.append hb).append (.step (fun h ↦ hop (Instruction.binary.inj h)) .nil)

/-- A product has no powers but those of its base. -/
theorem integralPowers_power (ha : IntegralPowers a.code) : IntegralPowers (power a n).code := by
  have habs : IntegralPowers (if n % 2 = 0 then [.unary .abs] else [] : List (Instruction α)) := by
    split
    · exact .step nofun .nil
    · exact .nil
  have hdup : IntegralPowers (List.replicate (n - 1) (.dup : Instruction α)) :=
    .of_forall fun i hi ↦ by rw [List.eq_of_mem_replicate hi]; nofun
  have hmul : IntegralPowers (List.replicate (n - 1) (.binary .mul : Instruction α)) :=
    .of_forall fun i hi ↦ by rw [List.eq_of_mem_replicate hi]; nofun
  exact ((ha.append habs).append hdup).append hmul

private theorem integralPowers_absBefore (hop : op ≠ .pow) (ha : IntegralPowers a.code) :
    IntegralPowers (absBefore op a).code := by
  have hswap : IntegralPowers (if op = .sub then [.swap] else [] : List (Instruction α)) := by
    split
    · exact .step nofun .nil
    · exact .nil
  have hshare : IntegralPowers [(.dup : Instruction α), .unary .abs] :=
    .step nofun (.step nofun .nil)
  exact ((ha.append hshare).append hswap).append
    (.step (fun h ↦ hop (Instruction.binary.inj h)) .nil)

private theorem integralPowers_absAfter (hop : op ≠ .pow) (ha : IntegralPowers a.code) :
    IntegralPowers (absAfter op a).code :=
  ha.append (.step nofun (.step nofun (.step (fun h ↦ hop (Instruction.binary.inj h)) .nil)))

theorem integralPowers_pow {e : Expr α} (ha : IntegralPowers a.code) (he : e.IsIntegralExponent) :
    IntegralPowers (binary .pow a (direct e)).code ∧
      IntegralPowers (binary .pow a (rewritten e)).code := by
  rw [code, code, List.append_assoc, List.append_assoc]
  obtain ⟨c, hc, rfl | rfl⟩ := he.exists_eq
  · exact ⟨ha.append (.power hc .nil), ha.append (.power hc .nil)⟩
  · exact ⟨ha.append (.powerNeg hc .nil), ha.append (.powerNeg hc .nil)⟩

private theorem integralPowers_direct {e : Expr α} (he : e.HasIntegralExponents) :
    IntegralPowers (direct e).code := by
  induction e with
  | const | var => exact .step nofun .nil
  | unary op a ih => exact integralPowers_unary op (ih he)
  | binary op a b iha ihb =>
    obtain ⟨ha, hb, hexp⟩ := he
    by_cases hop : op = .pow
    · subst hop
      exact (integralPowers_pow (iha ha) (hexp rfl)).1
    · exact integralPowers_binary hop (iha ha) (ihb hb)

private theorem integralPowers_rewritten {e : Expr α} (he : e.HasIntegralExponents) :
    IntegralPowers (rewritten e).code := by
  induction e with
  | const | var => exact .step nofun .nil
  | unary op a ih => exact integralPowers_unary op (ih he)
  | binary op a b iha ihb =>
    obtain ⟨ha, hb, hexp⟩ := he
    have hsum : op = .add ∨ op = .sub → IntegralPowers (rewritten (.binary op a b)).code := by
      intro hsum
      have hop := Expr.ne_pow_of_sum hsum
      rw [rewritten_ofOperands hsum]
      split
      · exact integralPowers_absBefore hop (ihb hb)
      split
      · exact integralPowers_absAfter hop (iha ha)
      · exact integralPowers_binary hop (iha ha) (ihb hb)
    cases op with
    | add => exact hsum (.inl rfl)
    | sub => exact hsum (.inr rfl)
    | mul | div => exact integralPowers_binary (by decide) (iha ha) (ihb hb)
    | pow =>
      rw [rewritten_pow]
      split
      · exact integralPowers_power (iha ha)
      · exact (integralPowers_pow (iha ha) (hexp rfl)).2

end Plan

/-! ## Narrower intervals -/

section Narrower

variable [Lawful α]

theorem Interval.within_point_zero : (point (0 : α)).Within (point 0) := by
  have hzero : (0 : α) ≤ 0 := not_not.mp not_isNaN_zero
  exact ⟨hzero, hzero⟩

theorem overRectangle_within {X X' Y Y' : Interval α} (hX : X.Within X') (hY : Y.Within Y')
    (v : Variable) : (overRectangle X Y v).Within (overRectangle X' Y' v) := by
  rw [overRectangle, overRectangle]
  split
  · exact hX
  split
  · exact hY
  · exact Interval.within_point_zero

theorem Pixel.classify_empty_of_within {I J : Interval α} (hIJ : I.Within J)
    (h : classify J = .empty) : classify I = .empty := by
  have hnan : ¬I.HasNaN := by
    rintro (hlower | hupper)
    · exact (Lawful.not_isNaN_of_le hIJ.1).2 hlower
    · exact (Lawful.not_isNaN_of_le hIJ.2).1 hupper
  obtain ⟨-, hclear⟩ := classify_eq_empty_iff.mp h
  exact classify_eq_empty_iff.mpr ⟨hnan, fun hzero ↦ hclear (hzero.mono hIJ)⟩

variable [OrderPreserving α]

/-- **Narrower bindings give a narrower value.** Let the exponents of a formula be integral
constants or their negations, and let a program of the formula, with or without shared values, be
run with two bindings of the variables, the one inside of the other. If no value that arises in
either run is infinite or not a number, and the run with the wider intervals succeeds, so does the
other one, with an interval inside of the first one. In particular, a rectangle inside of an empty
one is empty. -/
theorem Program.narrower_bindings_narrower_value (e : Expr α) (he : e.HasIntegralExponents)
    (p : Program α) (hp : p = compileDirect e ∨ p = compile e) :
    (∀ (c c' : Context α) (J : Interval α), (∀ v, (c.lookup v).Valid) →
      (∀ v, (c.lookup v).Within (c'.lookup v)) → p.StaysBounded c → p.StaysBounded c' →
      p.execute.outcome c' = .ok J → ∃ I, p.execute.outcome c = .ok I ∧ I.Within J) ∧
    ∀ (c c' : Context α) (X X' Y Y' J : Interval α), c.OthersZero → c'.OthersZero →
      X.Valid → Y.Valid → X.Within X' → Y.Within Y' →
      p.StaysBounded ((c.assign .x X).assign .y Y) →
      p.StaysBounded ((c'.assign .x X').assign .y Y') →
      (p.executeOver X' Y').outcome c' = .ok J →
      ∃ I, (p.executeOver X Y).outcome c = .ok I ∧ I.Within J ∧
        (Pixel.classify J = .empty → Pixel.classify I = .empty) := by
  have hwell : p.WellFormed := by
    rcases hp with rfl | rfl
    · exact wellFormed_ofPlan e _
    · exact wellFormed_ofPlan e _
  have hpow : IntegralPowers p.code := by
    rcases hp with rfl | rfl
    · exact Plan.integralPowers_direct he
    · exact Plan.integralPowers_rewritten he
  constructor
  · intro c c' J hvalid hwithin hb hb' h
    exact exists_within hwell hpow hvalid hwithin hb hb' h
  · intro c c' X X' Y Y' J hc hc' hX hY hXX hYY hb hb' h
    rw [outcome_executeOver] at h
    have hvalid : ∀ v, (overRectangle X Y v).Valid :=
      overRectangle_of hX hY (Interval.valid_point 0)
    rw [← hc.lookup_assign_coordinates] at hvalid
    have hwithin := overRectangle_within hXX hYY
    rw [← hc.lookup_assign_coordinates, ← hc'.lookup_assign_coordinates] at hwithin
    obtain ⟨I, hI, hIJ⟩ := exists_within hwell hpow hvalid hwithin hb hb' h
    exact ⟨I, hI, hIJ, Pixel.classify_empty_of_within hIJ⟩

end Narrower

/-- The first coordinate loses its positive values, in both programs; and a rectangle outside of the
circle becomes smaller. Both are runs in binary64 arithmetic. -/
theorem unitCircle_narrower :
    letI := Binary64.arithmetic Binary64.roundedPower
    (∀ p : Program Float, p = .compileDirect unitCircle ∨ p = .compile unitCircle →
      ∃ I, p.execute.outcome (((Context.new 0).assign .x ⟨-1, 0⟩).assign .y ⟨1, 2⟩) = .ok I ∧
        I.Within ⟨0, 7⟩) ∧
      ∃ I : Interval Float,
        ((Program.compile unitCircle).executeOver ⟨3, 4⟩ ⟨2, 3⟩).outcome (.new 0) = .ok I ∧
          I.Within ⟨4, 40⟩ ∧ Pixel.classify I = .empty := by
  let _ := Binary64.arithmetic Binary64.roundedPower
  have := Binary64.lawful Binary64.roundedPower
  have := Binary64.orderPreserving_roundedPower
  have hexp : (unitCircle : Expr Float).HasIntegralExponents :=
    unitCircle_hasIntegralExponents (by decide +kernel)
  have hlookup (x y : Interval Float) :
      (((Context.new 0).assign .x x).assign .y y).lookup = overRectangle x y :=
    (Context.othersZero_new 0).lookup_assign_coordinates x y
  constructor
  · intro p hp
    refine (Program.narrower_bindings_narrower_value unitCircle hexp p hp).1 _
      (((Context.new 0).assign .x ⟨-1, 2⟩).assign .y ⟨1, 2⟩) ⟨0, 7⟩ ?_ ?_ ?_ ?_ ?_
    · rw [hlookup]
      exact overRectangle_of (by decide +kernel) (by decide +kernel) (by decide +kernel)
    · rw [hlookup, hlookup]
      exact overRectangle_within ⟨by decide +kernel, by decide +kernel⟩
        ⟨by decide +kernel, by decide +kernel⟩
    all_goals rcases hp with rfl | rfl <;> decide +kernel
  · obtain ⟨I, hI, hwithin, hempty⟩ := (Program.narrower_bindings_narrower_value unitCircle hexp _
      (.inr rfl)).2 (.new 0) (.new 0) ⟨3, 4⟩ ⟨2, 4⟩ ⟨2, 3⟩ ⟨1, 5⟩ ⟨4, 40⟩
      (Context.othersZero_new 0) (Context.othersZero_new 0) (by decide +kernel)
      (by decide +kernel) ⟨by decide +kernel, by decide +kernel⟩
      ⟨by decide +kernel, by decide +kernel⟩ (by decide +kernel) (by decide +kernel)
      (by decide +kernel)
    exact ⟨I, hI, hwithin, hempty (by decide +kernel)⟩

end ImplicitPlot
