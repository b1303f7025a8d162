import ImplicitPlot.Proofs.Formula.Sharing
import ImplicitPlot.Proofs.Interval.PowerInclusion
import ImplicitPlot.Proofs.Interval.SingleValues
import ImplicitPlot.Proofs.Machine.Bindings
import ImplicitPlot.Proofs.Scalar.Exact

/-!
# Sharing only widens

Over exact numbers, the evaluation that shares gives at least the interval of the plain evaluation,
and it has every fault that the plain one has: if it succeeds, so does the plain one, with an
interval inside of its own. The two differ in small powers only. A product of several copies of a
base on both sides of zero does not know that its factors are the same value, so the product is
wider than the power (`exists_pow_within`). The wider interval then takes part in further
operations, all of which keep inclusions (`UnaryOp.exists_within`, `BinaryOp.exists_within`).

At single values there is nothing to widen, and the two evaluations agree.
-/

namespace ImplicitPlot

open Scalar

/-! ## Exact intervals -/

namespace Exact

variable {a a' b b' r' : Interval ℚ}

@[simp] theorem isBounded (a : Interval ℚ) : a.IsBounded := ⟨isFinite _, isFinite _⟩

theorem isIntegral_natCast (n : Nat) : Interval.IsIntegral (n : ℚ) :=
  ⟨isFinite _, round_intCast n⟩

theorem pow_natCast (v : ℚ) (n : Nat) : Scalar.pow v (n : ℚ) = v ^ n :=
  (pow_intCast v n).trans (zpow_natCast v n)

theorem isSingle_of_isPoint (ha : a.IsPoint) : a.IsSingle := by
  obtain ⟨lower, upper⟩ := a
  obtain rfl : lower = upper := le_antisymm ha.1 ha.2
  exact ⟨lower, rfl⟩

theorem eq_of_within_single (ha : a.Valid) (haa : a.Within a') (ha' : a'.IsSingle) : a' = a := by
  obtain ⟨v, rfl⟩ := ha'
  obtain ⟨lower, upper⟩ := a
  have hle : lower ≤ upper := ha.lower_le_upper (isBounded _)
  have hlower : v ≤ lower := haa.1
  have hupper : upper ≤ v := haa.2
  obtain rfl : v = lower := le_antisymm hlower (hle.trans hupper)
  obtain rfl : v = upper := le_antisymm hle hupper
  rfl

theorem exists_unary_within {op : UnaryOp} (ha : a.Valid) (haa : a.Within a')
    (h : op.onInterval a' = .ok r') : ∃ r, op.onInterval a = .ok r ∧ r.Within r' := by
  obtain ⟨r, hr, hwithin⟩ :=
    UnaryOp.exists_within ha (isBounded a) (isBounded a') haa h (isBounded r')
  exact ⟨r, hr, hwithin (isBounded r)⟩

theorem exists_abs_within (ha : a.Valid) (haa : a.Within a') (h : a'.abs = .ok r') :
    ∃ r, a.abs = .ok r ∧ r.Valid ∧ r.Within r' := by
  obtain ⟨r, hr, hrr⟩ := exists_unary_within ha haa (show UnaryOp.abs.onInterval a' = .ok r' from h)
  exact ⟨r, hr, UnaryOp.valid_of_onInterval ha hr, hrr⟩

theorem exists_binary_within {op : BinaryOp} (ha : a.Valid) (hb : b.Valid) (haa : a.Within a')
    (hbb : b.Within b')
    (hpow : op = .pow → ∃ k, Interval.IsIntegral k ∧ b = .point k ∧ b' = .point k)
    (h : op.onIntervals a' b' = .ok r') : ∃ r, op.onIntervals a b = .ok r ∧ r.Within r' := by
  obtain ⟨r, hr, hwithin⟩ := BinaryOp.exists_within ha (isBounded a) hb (isBounded b)
    (isBounded a') (isBounded b') haa hbb hpow h (isBounded r')
  exact ⟨r, hr, hwithin (isBounded r)⟩

/-! ## Powers as products -/

variable {v : ℚ} {n : Nat}

theorem contains_product (hv : a.Contains v) (h : a.product n = .ok r') :
    r'.Contains (v ^ (n + 1)) := by
  induction n generalizing r' with
  | zero =>
    cases h
    rwa [pow_one]
  | succ n ih =>
    obtain ⟨y, hy, hmul⟩ := exists_of_bind_eq_ok h
    rw [pow_succ']
    exact Interval.contains_mul (isBounded a) (isBounded y) (isFinite _) (isFinite _) hv (ih hy)
      hmul (isBounded r')

/-- An even power is a product of magnitudes, an odd one a product of the values. -/
theorem contains_product_of_factors (hn : 1 ≤ n) (hv : a'.Contains v)
    (hb : (if n % 2 = 0 then a'.abs else .ok a') = .ok b') (h : b'.product (n - 1) = .ok r') :
    r'.Contains (v ^ n) := by
  split at hb
  next heven =>
    have hpow := contains_product (Interval.contains_abs (isBounded a') hv hb) h
    rw [Nat.sub_add_cancel hn] at hpow
    exact (Nat.even_iff.mpr heven).pow_abs v ▸ hpow
  next =>
    cases hb
    have hpow := contains_product hv h
    rwa [Nat.sub_add_cancel hn] at hpow

theorem bounds_of_pow (ha : a.Valid) (hn : 1 ≤ n) (h : a.pow (.point (n : ℚ)) = .ok r') :
    (∃ v, a.Contains v ∧ v ^ n = r'.lower) ∧ ∃ v, a.Contains v ∧ v ^ n = r'.upper := by
  have hmem : ∀ {v}, a.IsBound v → a.Contains v := ha.contains_of_isBound (isBounded a)
  obtain ⟨⟨v, hv, hlower⟩, w, hw, hupper⟩ | ⟨hboth, heven, rfl⟩ :=
    Interval.bounds_of_pow (isBounded a) (isIntegral_natCast n) h (isBounded r')
  · rw [pow_natCast] at hlower hupper
    exact ⟨⟨v, hmem hv, hlower⟩, w, hmem hw, hupper⟩
  · refine ⟨⟨0, ⟨hboth.1.le, hboth.2.le⟩, zero_pow (by omega)⟩, ?_⟩
    -- The greatest magnitude is that of a bound, and the exponent is even.
    have heven' : Even n := (Int.even_coe_nat n).mp ((isEven_intCast_iff n).mp heven)
    rw [pow_natCast]
    exact maxNum_of (P := fun u ↦ ∃ v, a.Contains v ∧ v ^ n = u ^ n) ⟨_, hmem (.inr rfl), rfl⟩
      ⟨_, hmem (.inl rfl), (heven'.neg_pow _).symm⟩

/-- **A small power is inside of its product**, also if the base becomes narrower. -/
theorem exists_pow_within (ha : a.Valid) (haa : a.Within a') (hn : 1 ≤ n)
    (hb : (if n % 2 = 0 then a'.abs else .ok a') = .ok b') (h : b'.product (n - 1) = .ok r') :
    ∃ r, a.pow (.point (n : ℚ)) = .ok r ∧ r.Within r' := by
  have hsign : ¬((n : ℚ) < 0 ∧ a.Contains 0) := fun hneg ↦ not_lt_of_ge n.cast_nonneg hneg.1
  obtain ⟨r, hr⟩ := Interval.exists_pow ha (isBounded a) (isIntegral_natCast n) hsign
  obtain ⟨⟨v, hv, hlower⟩, w, hw, hupper⟩ := bounds_of_pow ha hn hr
  refine ⟨r, hr, ?_, ?_⟩
  · rw [← hlower]
    exact (contains_product_of_factors hn (haa.contains hv) hb h).1
  · rw [← hupper]
    exact (contains_product_of_factors hn (haa.contains hw) hb h).2

end Exact

/-! ## Formulas -/

namespace Expr

section Lawful

variable {α : Type} [Scalar α] {vars : Variable → Interval α} {e : Expr α} {a : Interval α}

theorem isSingle_of_product {n : Nat} {r : Interval α} (ha : a.IsSingle)
    (h : a.product n = .ok r) : r.IsSingle := by
  induction n generalizing r with
  | zero =>
    cases h
    exact ha
  | succ n ih =>
    obtain ⟨y, hy, hmul⟩ := exists_of_bind_eq_ok h
    exact Interval.isSingle_of_mul ha (ih hy) hmul

variable [Lawful α]

/-- The value of a formula is a valid interval if those of the variables are. -/
theorem valid_of_onIntervals (hvars : ∀ v, (vars v).Valid) (h : e.onIntervals vars = .ok a) :
    a.Valid := by
  induction e generalizing a with
  | const c =>
    cases h
    exact Interval.valid_point c
  | var v =>
    cases h
    exact hvars v
  | unary op e ih =>
    obtain ⟨x, hx, hop⟩ := exists_of_bind_eq_ok h
    exact UnaryOp.valid_of_onInterval (ih hx) hop
  | binary op e f ihe ihf =>
    obtain ⟨x, -, hrest⟩ := exists_of_bind_eq_ok h
    obtain ⟨y, -, hop⟩ := exists_of_bind_eq_ok hrest
    exact BinaryOp.valid_of_onIntervals hop

theorem isSingle_of_onIntervalsShared (hvars : ∀ v, (vars v).IsSingle)
    (h : e.onIntervalsShared vars = .ok a) : a.IsSingle := by
  induction e generalizing a with
  | const c =>
    cases h
    exact ⟨c, rfl⟩
  | var v =>
    cases h
    exact hvars v
  | unary op e ih =>
    obtain ⟨x, hx, hop⟩ := exists_of_bind_eq_ok h
    exact UnaryOp.isSingle_of_onInterval (ih hx) hop
  | binary op e f ihe ihf =>
    cases sharedSteps h with
    | plain hx hy hop => exact BinaryOp.isSingle_of_onIntervals (ihe hx) (ihf hy) hop
    | before _ _ hy hx hop =>
      have hsingle := ihf hy
      exact BinaryOp.isSingle_of_onIntervals (Interval.isSingle_of_abs hsingle hx) hsingle hop
    | after _ _ hx hy hop =>
      have hsingle := ihe hx
      exact BinaryOp.isSingle_of_onIntervals hsingle (Interval.isSingle_of_abs hsingle hy) hop
    | product _ _ hx hy hproduct =>
      have hsingle := ihe hx
      split at hy
      · exact isSingle_of_product (Interval.isSingle_of_abs hsingle hy) hproduct
      · cases hy
        exact isSingle_of_product hsingle hproduct

end Lawful

variable {vars : Variable → Interval ℚ} {e b : Expr ℚ} {I : Interval ℚ}

namespace IsIntegralExponent

private theorem eq_of_factors? (hb : b.IsIntegralExponent) {n : Nat} (h : b.factors? = some n) :
    b = const (n : ℚ) ∧ 1 ≤ n := by
  match b, hb, h with
  | const c, hb, h =>
    obtain ⟨m, rfl⟩ := Exact.exists_intCast_eq hb
    rw [factors?, Option.map_eq_some_iff] at h
    obtain ⟨k, hk, rfl⟩ := h
    obtain ⟨hk, hbounds⟩ := Option.filter_eq_some_iff.mp hk
    have hpos : 1 ≤ k := (of_decide_eq_true hbounds).1
    obtain rfl : m = k := by
      rw [asInteger?] at hk
      split at hk
      · rw [← Option.some.inj hk]
        exact ((congrArg Int.floor hb).trans (Int.floor_intCast m)).symm
      · cases hk
    have hcast : ((m.toNat : ℕ) : ℚ) = m := by
      exact_mod_cast Int.toNat_of_nonneg (le_trans Int.one_nonneg hpos)
    exact ⟨congrArg const hcast.symm, by omega⟩

theorem onIntervalsShared_eq (hb : b.IsIntegralExponent) :
    b.onIntervalsShared vars = b.onIntervals vars := by
  match b, hb with
  | const c, _ => rfl
  | unary .neg (const c), _ => rfl

private theorem exists_points (hb : b.IsIntegralExponent) {J : Interval ℚ}
    (hJ : b.onIntervals vars = .ok J) (hI : b.onIntervalsShared vars = .ok I) :
    ∃ k, Interval.IsIntegral k ∧ J = .point k ∧ I = .point k := by
  obtain ⟨k, -, hk, hint⟩ := hb.eq_point (p := fun _ ↦ 0) hJ (Exact.isBounded J)
  rw [hb.onIntervalsShared_eq] at hI
  cases hI.symm.trans hJ
  exact ⟨k, hint, hk, hk⟩

end IsIntegralExponent

theorem ne_pow_of_sum {op : BinaryOp} (h : op = .add ∨ op = .sub) : op ≠ .pow := by
  rcases h with rfl | rfl
  · decide
  · decide

/-- **Sharing only widens.** By induction on the formula. Each operation keeps the inclusions of its
operands; only a small power is computed in another way. -/
theorem exists_onIntervals_within (hvars : ∀ v, (vars v).Valid) (hexp : e.HasIntegralExponents)
    (hshare : e.SharesEqualTrees) (h : e.onIntervalsShared vars = .ok I) :
    ∃ J, e.onIntervals vars = .ok J ∧ J.Within I := by
  induction e generalizing I with
  | const | var =>
    cases h
    exact ⟨_, rfl, le_refl (_ : ℚ), le_refl (_ : ℚ)⟩
  | unary op a ih =>
    obtain ⟨x, hx, hop⟩ := exists_of_bind_eq_ok h
    obtain ⟨x', hx', hxx⟩ := ih hexp hshare.2 hx
    obtain ⟨J, hJ, hJI⟩ :=
      Exact.exists_unary_within (valid_of_onIntervals hvars hx') hxx hop
    exact ⟨J, bind_eq_ok hx' hJ, hJI⟩
  | binary op a b iha ihb =>
    obtain ⟨hea, heb, hpow⟩ := hexp
    cases sharedSteps h with
    | plain hx hy hop =>
      obtain ⟨x', hx', hxx⟩ := iha hea hshare.2.1 hx
      obtain ⟨y', hy', hyy⟩ := ihb heb hshare.2.2 hy
      obtain ⟨J, hJ, hJI⟩ := Exact.exists_binary_within (valid_of_onIntervals hvars hx')
        (valid_of_onIntervals hvars hy') hxx hyy
        (fun heq ↦ (hpow heq).exists_points hy' hy) hop
      exact ⟨J, bind_eq_ok hx' (bind_eq_ok hy' hJ), hJI⟩
    | before hsum hab hy hx hop =>
      obtain rfl := hshare.eq_before hsum hab
      obtain ⟨y', hy', hyy⟩ := ihb heb hshare.2.2 hy
      have hvalid := valid_of_onIntervals hvars hy'
      obtain ⟨x', hx', hvalid', hxx⟩ := Exact.exists_abs_within hvalid hyy hx
      obtain ⟨J, hJ, hJI⟩ := Exact.exists_binary_within hvalid' hvalid hxx hyy
        (fun heq ↦ absurd heq (ne_pow_of_sum hsum)) hop
      rw [onIntervals_before]
      exact ⟨J, bind_eq_ok hy' (bind_eq_ok hx' hJ), hJI⟩
    | after hsum hba hx hy hop =>
      obtain rfl := hshare.eq_after hsum hba
      obtain ⟨x', hx', hxx⟩ := iha hea hshare.2.1 hx
      have hvalid := valid_of_onIntervals hvars hx'
      obtain ⟨y', hy', hvalid', hyy⟩ := Exact.exists_abs_within hvalid hxx hy
      obtain ⟨J, hJ, hJI⟩ := Exact.exists_binary_within hvalid hvalid' hxx hyy
        (fun heq ↦ absurd heq (ne_pow_of_sum hsum)) hop
      rw [onIntervals_after]
      exact ⟨J, bind_eq_ok hx' (bind_eq_ok hy' hJ), hJI⟩
    | product hop hn hx hy hproduct =>
      subst hop
      obtain ⟨rfl, hone⟩ := (hpow rfl).eq_of_factors? hn
      obtain ⟨x', hx', hxx⟩ := iha hea hshare.2.1 hx
      obtain ⟨J, hJ, hJI⟩ :=
        Exact.exists_pow_within (valid_of_onIntervals hvars hx') hxx hone hy hproduct
      exact ⟨J, bind_eq_ok hx' (bind_eq_ok rfl hJ), hJI⟩

end Expr

/-! ## Programs -/

namespace Program

/-- **The program with shared values encloses the direct one.** Over exact numbers, let the
exponents be integral constants or their negations, and let only equal formulas share a value. If
the program with shared values succeeds in a context of valid intervals, then so does the direct
program, with an interval inside of the first one; and if the context has single values only, the
two intervals are the same. -/
theorem direct_within_shared (e : Expr ℚ) (c : Context ℚ) (I : Interval ℚ)
    (hexp : e.HasIntegralExponents) (hshare : e.SharesEqualTrees)
    (hvalid : ∀ v, (c.lookup v).Valid) (h : (compile e).execute.outcome c = .ok I) :
    ∃ J, (compileDirect e).execute.outcome c = .ok J ∧ J.Within I ∧
      ((∀ v, (c.lookup v).IsPoint) → I = J) := by
  rw [outcome_compile add_comm] at h
  obtain ⟨J, hJ, hJI⟩ := Expr.exists_onIntervals_within hvalid hexp hshare h
  rw [outcome_compileDirect]
  refine ⟨J, hJ, hJI, fun hpoint ↦ ?_⟩
  have hsingle := Expr.isSingle_of_onIntervalsShared
    (fun v ↦ Exact.isSingle_of_isPoint (hpoint v)) h
  exact Exact.eq_of_within_single (Expr.valid_of_onIntervals hvalid hJ) hJI hsingle

end Program

/-- A cube, and a value taken from its own magnitude. -/
def cubeAndMagnitude : Expr ℚ :=
  .binary .add (.binary .pow (.var .x) (.const 3)) (.binary .sub (.unary .abs (.var .y)) (.var .y))

theorem cubeAndMagnitude_sharesEqualTrees : cubeAndMagnitude.SharesEqualTrees := by
  refine ⟨?_, ⟨?_, ?_, ?_⟩, ?_, ⟨?_, ?_⟩, ?_⟩
  case refine_5 =>
    rintro op a b - (h | h) - <;> cases h
    rfl
  all_goals rintro op a b - (h | h) <;> cases h

/-- The cube of a base on both sides of zero is wider as a product, that of a single value is
not. -/
theorem cubeAndMagnitude_within :
    (∃ J, (Program.compileDirect cubeAndMagnitude).execute.outcome
        (((Context.new 0).assign .x ⟨-2, 1⟩).assign .y ⟨-1, 2⟩) = .ok J ∧ J.Within ⟨-10, 7⟩) ∧
      ∃ J, (Program.compileDirect cubeAndMagnitude).execute.outcome
        (((Context.new 0).assign .x (.point (-2))).assign .y (.point (-1))) = .ok J ∧
        .point (-6) = J := by
  have hexp : cubeAndMagnitude.HasIntegralExponents :=
    ⟨⟨trivial, trivial, fun _ ↦ Exact.round_intCast 3⟩, ⟨trivial, trivial, nofun⟩, nofun⟩
  have hlookup (x y : Interval ℚ) :
      (((Context.new 0).assign .x x).assign .y y).lookup = overRectangle x y :=
    (Context.othersZero_new 0).lookup_assign_coordinates x y
  constructor
  · obtain ⟨J, hJ, hwithin, -⟩ := Program.direct_within_shared cubeAndMagnitude
      (((Context.new 0).assign .x ⟨-2, 1⟩).assign .y ⟨-1, 2⟩) ⟨-10, 7⟩ hexp
      cubeAndMagnitude_sharesEqualTrees
      (by
        rw [hlookup]
        exact overRectangle_of (by decide +kernel) (by decide +kernel) (by decide +kernel))
      (by decide +kernel)
    exact ⟨J, hJ, hwithin⟩
  · obtain ⟨J, hJ, -, heq⟩ := Program.direct_within_shared cubeAndMagnitude
      (((Context.new 0).assign .x (.point (-2))).assign .y (.point (-1))) (.point (-6)) hexp
      cubeAndMagnitude_sharesEqualTrees
      (by
        rw [hlookup]
        exact overRectangle_of (Interval.valid_point _) (Interval.valid_point _)
          (Interval.valid_point _))
      (by decide +kernel)
    refine ⟨J, hJ, heq ?_⟩
    rw [hlookup]
    exact overRectangle_of (by decide +kernel) (by decide +kernel) (by decide +kernel)

end ImplicitPlot
