import ImplicitPlot.Proofs.Plot.CornerOrder
import ImplicitPlot.Proofs.Plot.Crew
import ImplicitPlot.Proofs.Scalar.RoundingError
import ImplicitPlot.Proofs.Scalar.Size
import ImplicitPlot.Proofs.Text.LineRoles

/-!
# Corners of a region

Corners with four numbers for coordinates make a finite region exactly if the coordinates and their
distances are finite, by any order that sorts numbers. A coordinate that is not a number is up to
the order. If the second coordinate is taken for both bounds then, one of the first corner is passed
over, and the region has no extent along that axis, whereas one of the second corner makes the
region not finite (`Region.Spans`).
-/

namespace ImplicitPlot

open Scalar (IsNaN Lawful)
open ScriptLine (Decides)

namespace Region

/-- Two coordinates make a finite range: the second one is finite, and the first one is not a
number, or it is finite as well and not too far away. -/
def Spans (a b : Float) : Prop :=
  Scalar.IsFinite b ∧ (IsNaN a ∨ Scalar.IsFinite a ∧ Scalar.IsFinite (b - a))

instance (a b : Float) : Decidable (Spans a b) := inferInstanceAs (Decidable (_ ∧ _))

open Binary64

variable {a b x y : Float} {order : CornerOrder Float}

private theorem isFinite_sub_comm (ha : Scalar.IsFinite a) (hb : Scalar.IsFinite b) :
    Scalar.IsFinite (a - b) ↔ Scalar.IsFinite (b - a) := by
  rw [isFinite_sub_iff ha hb, isFinite_sub_iff hb ha, abs_sub_comm]

theorem range_congr (hx : Scalar.Agree x a) (hy : Scalar.Agree y b) :
    Scalar.IsFinite x ∧ Scalar.IsFinite y ∧ Scalar.IsFinite (y - x) ↔
      Scalar.IsFinite a ∧ Scalar.IsFinite b ∧ Scalar.IsFinite (b - a) := by
  have hagree {z t : Float} (h : Scalar.Agree z t) : Scalar.IsFinite z ↔ Scalar.IsFinite t :=
    ⟨isFinite_of_agree h, isFinite_of_agree h.symm⟩
  rw [hagree hx, hagree hy]
  refine and_congr_right fun ha ↦ and_congr_right fun hb ↦ ?_
  exact hagree (sub_agree hy hx
    (not_isNaN_sub ((hagree hy).mpr hb) (Lawful.not_isNaN_of_isFinite ((hagree hx).mpr ha))))

/-- **The range of two numbers** is finite exactly if they are, and are not too far apart. -/
theorem range_isFinite_iff (hsorts : order.Sorts) (ha : ¬IsNaN a) (hb : ¬IsNaN b) :
    Scalar.IsFinite (order.lower a b) ∧ Scalar.IsFinite (order.higher a b) ∧
        Scalar.IsFinite (order.higher a b - order.lower a b) ↔
      Scalar.IsFinite a ∧ Scalar.IsFinite b ∧ Scalar.IsFinite (b - a) := by
  rcases Lawful.le_total ha hb with hab | hba
  · obtain ⟨hlower, hhigher⟩ := hsorts.agree hab
    exact range_congr hlower hhigher
  · obtain ⟨hlower, hhigher⟩ := hsorts.agree_of_ge hba
    rw [range_congr hlower hhigher, and_left_comm]
    exact and_congr_right fun ha ↦ and_congr_right fun hb ↦ isFinite_sub_comm ha hb

theorem range_isFinite_iff_of_isNaN (hsecond : order.TakesSecond) (h : IsNaN a ∨ IsNaN b) :
    Scalar.IsFinite (order.lower a b) ∧ Scalar.IsFinite (order.higher a b) ∧
        Scalar.IsFinite (order.higher a b - order.lower a b) ↔ Scalar.IsFinite b := by
  obtain ⟨hlower, hhigher⟩ := hsecond a b h
  rw [hlower, hhigher]
  exact ⟨fun hb ↦ hb.1, fun hb ↦
    ⟨hb, hb, isFinite_of_agree (Lawful.sub_self hb).symm (by decide +kernel)⟩⟩

theorem spans_iff (hsorts : order.Sorts) (hsecond : order.TakesSecond) :
    Scalar.IsFinite (order.lower a b) ∧ Scalar.IsFinite (order.higher a b) ∧
        Scalar.IsFinite (order.higher a b - order.lower a b) ↔ Spans a b := by
  rw [Spans]
  by_cases h : IsNaN a ∨ IsNaN b
  · rw [range_isFinite_iff_of_isNaN hsecond h]
    refine (and_iff_left_of_imp fun hb ↦ .inl ?_).symm
    exact h.resolve_right (Lawful.not_isNaN_of_isFinite hb)
  · obtain ⟨ha, hb⟩ := not_or.mp h
    rw [range_isFinite_iff hsorts ha hb, or_iff_right ha, and_left_comm]

theorem isFinite_ofCorners_iff (order : CornerOrder Float) (a b : Point Float) :
    (ofCorners order a b).IsFinite ↔
      (Scalar.IsFinite (order.lower a.x b.x) ∧ Scalar.IsFinite (order.higher a.x b.x) ∧
        Scalar.IsFinite (order.higher a.x b.x - order.lower a.x b.x)) ∧
      Scalar.IsFinite (order.lower a.y b.y) ∧ Scalar.IsFinite (order.higher a.y b.y) ∧
        Scalar.IsFinite (order.higher a.y b.y - order.lower a.y b.y) := by
  constructor
  · rintro ⟨⟨hminx, hminy⟩, ⟨hmaxx, hmaxy⟩, hwidth, hheight⟩
    exact ⟨⟨hminx, hmaxx, hwidth⟩, hminy, hmaxy, hheight⟩
  · rintro ⟨⟨hminx, hmaxx, hwidth⟩, hminy, hmaxy, hheight⟩
    exact ⟨⟨hminx, hminy⟩, ⟨hmaxx, hmaxy⟩, hwidth, hheight⟩

end Region

/-! ## What depends on the region being finite -/

theorem Canvas.outcome_ne_nonFiniteRegion {α : Type} (c : Canvas α) :
    c.outcome ≠ .error .nonFiniteRegion := by
  intro h
  rw [outcome] at h
  cases hfault : c.firstFault with
  | none =>
    rw [hfault] at h
    cases h
  | some site =>
    rw [hfault] at h
    cases h

/-- A picture with pixels is refused for its region exactly if this is not finite. -/
theorem renderBy_eq_nonFiniteRegion_iff {φ α κ : Type} [Plottable φ α κ] [Scalar α]
    (pools : PoolBuilder) (schedule : Crew α κ → List Nat) (f : φ) {s : RenderSettings α}
    (hsize : ¬s.view.size.IsEmpty) :
    renderBy pools schedule f s = .error .nonFiniteRegion ↔ ¬s.view.region.IsFinite := by
  constructor
  · intro h hfinite
    cases hbands : s.bands with
    | error e =>
      rw [renderBy, hbands] at h
      obtain rfl := Except.error.inj h
      rw [RenderSettings.bands, if_neg hsize, if_neg (not_not_intro hfinite)] at hbands
      split at hbands <;> cases hbands
    | ok bands =>
      by_cases hpools : pools.Serves s.workers
      · rw [renderBy_of_bands hbands hpools] at h
        exact Canvas.outcome_ne_nonFiniteRegion _ h
      · have hnone : ∃ reason, pools.build s.workers.count = .error reason ∧
            renderBy pools schedule f s = .error (.noPool reason) :=
          renderBy_of_not_serves hbands hpools
        obtain ⟨reason, -, hreason⟩ := hnone
        cases hreason.symm.trans h
  · intro h
    rw [renderBy, RenderSettings.bands, if_neg hsize, if_pos h]
    rfl

theorem Region.ofWords?_getD {order : CornerOrder Float} {x1 y1 x2 y2 : List Char}
    {a b : Point Float} (hax : Decimal.read x1 = some a.x) (hay : Decimal.read y1 = some a.y)
    (hbx : Decimal.read x2 = some b.x) (hby : Decimal.read y2 = some b.y) :
    (ofWords? order x1 y1 x2 y2).getD (.default order)
      = if (ofCorners order a b).IsFinite then ofCorners order a b else .default order := by
  have hwords : ofWords? order x1 y1 x2 y2
      = if (ofCorners order a b).IsFinite then some (ofCorners order a b) else none := by
    rw [ofWords?, hax, hay, hbx, hby]
    rfl
  rw [hwords]
  split <;> rfl

/-- **Which corners make a finite region.** If the four coordinates are numbers, they have to be
finite and not too far away from each other. What is true of a coordinate that is not a number
depends on the order. If the second coordinate is taken for both bounds then, only the second one
has to be finite, and the region is the one of the second coordinate alone. A picture is refused
exactly for a region that is not finite, and a script resets such a region to the default one, if
its last four words are such corners. -/
theorem finite_region_of_corners (order : CornerOrder Float) (hsorts : order.Sorts)
    (a b : Point Float) :
    (¬IsNaN a.x → ¬IsNaN a.y → ¬IsNaN b.x → ¬IsNaN b.y →
      ((Region.ofCorners order a b).IsFinite ↔
        (Scalar.IsFinite a.x ∧ Scalar.IsFinite b.x ∧ Scalar.IsFinite (b.x - a.x)) ∧
        Scalar.IsFinite a.y ∧ Scalar.IsFinite b.y ∧ Scalar.IsFinite (b.y - a.y))) ∧
    (order.TakesSecond → ((Region.ofCorners order a b).IsFinite ↔
      Region.Spans a.x b.x ∧ Region.Spans a.y b.y)) ∧
    (∀ {φ κ : Type} [Plottable φ Float κ] (pools : PoolBuilder)
      (schedule : Crew Float κ → List Nat) (f : φ) (size : ImageSize) (yAxis : YAxis)
      (workers : WorkerCount), ¬size.IsEmpty →
      (renderBy pools schedule f ⟨⟨.ofCorners order a b, size, yAxis⟩, workers⟩
          = .error .nonFiniteRegion ↔ ¬(Region.ofCorners order a b).IsFinite)) ∧
    ∀ (text : String) (before after : List (List Char)) (rest x1 y1 x2 y2 : List Char),
      Text.lines text.toList = before ++ ('#' :: '!' :: rest) :: after →
      Text.words rest = [x1, y1, x2, y2] → (∀ line ∈ after, ¬Decides line) →
      Decimal.read x1 = some a.x → Decimal.read y1 = some a.y →
      Decimal.read x2 = some b.x → Decimal.read y2 = some b.y →
      (Script.ofText order text).region
        = if (Region.ofCorners order a b).IsFinite then .ofCorners order a b
          else .default order := by
  refine ⟨fun hax hay hbx hby ↦ ?_, fun hsecond ↦ ?_,
    fun pools schedule f size yAxis workers hsize ↦
      renderBy_eq_nonFiniteRegion_iff pools schedule f hsize, ?_⟩
  · rw [Region.isFinite_ofCorners_iff, Region.range_isFinite_iff hsorts hax hbx,
      Region.range_isFinite_iff hsorts hay hby]
  · rw [Region.isFinite_ofCorners_iff, Region.spans_iff hsorts hsecond,
      Region.spans_iff hsorts hsecond]
  · intro text before after rest x1 y1 x2 y2 hlines hwords hafter hax hay hbx hby
    rw [Script.region_ofText hlines hwords hafter, Region.ofWords?_getD hax hay hbx hby]

theorem infiniteCorner_reset :
    (CornerOrder.comparing : CornerOrder Float).Sorts ∧
      (CornerOrder.comparing : CornerOrder Float).TakesSecond ∧
      (Script.ofText .comparing "#! 0 inf 1 1\nx").region = .default .comparing := by
  obtain ⟨-, hspans, -, hscript⟩ := finite_region_of_corners .comparing
    CornerOrder.comparing_sorts ⟨0, Binary64.infinity⟩ ⟨1, 1⟩
  refine ⟨CornerOrder.comparing_sorts, CornerOrder.comparing_takesSecond, ?_⟩
  rw [hscript "#! 0 inf 1 1\nx" [] ["x".toList] " 0 inf 1 1".toList "0".toList "inf".toList
    "1".toList "1".toList (by decide +kernel) (by decide +kernel) ?_ (by decide +kernel)
    (by decide +kernel) (by decide +kernel) (by decide +kernel), if_neg]
  · rw [hspans CornerOrder.comparing_takesSecond]
    decide +kernel
  · intro line hline
    obtain rfl := List.mem_singleton.mp hline
    rw [← ScriptLine.corners?_ofChars_eq_none_iff]
    rfl

/-- A first corner without a first coordinate is accepted, also by a script, and drawn. -/
theorem nanCorner_accepted :
    ¬Scalar.IsFinite Binary64.nan ∧
      (Region.ofCorners .comparing ⟨Binary64.nan, 0⟩ ⟨1, 1⟩).IsFinite ∧
      (Script.ofText .comparing "#! nan 0 1 1\nx").region ≠ .default .comparing ∧
      render .ample (⟨[.pushVar .x], 1⟩ : Program Float)
          ⟨⟨.ofCorners .comparing ⟨Binary64.nan, 0⟩ ⟨1, 1⟩, ⟨1, 1⟩, .up⟩, .one⟩
        = .ok ⟨1, 1, #[.empty], rfl⟩ :=
  ⟨by decide +kernel, by decide +kernel, by decide +kernel, by decide +kernel⟩

end ImplicitPlot
