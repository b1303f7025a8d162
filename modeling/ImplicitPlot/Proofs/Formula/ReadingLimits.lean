import ImplicitPlot.Proofs.Formula.Lookahead
import ImplicitPlot.Proofs.Formula.Reading

/-!
# Readings keep to the limits

Every moment of a reading is sound (`Moment.Sound`): the counter is the number of factors under way
and within the limit, a node that is made has the height with which it is tagged, and a call that
ends leaves the counter as it has found it.

A reading with some limits also decides what the rules of the parser do with smaller ones
(`Reading.Follows`). Either all moments keep to the smaller limits, and the rule has the result of
the reading, or some moment does not, and the rule has failed at a limit. With the same limits for
both, the rule has the result of the reading.
-/

namespace ImplicitPlot

variable {α : Type} {limits within : Limits} {n fuel used used' : Nat}

/-! ## Moments -/

/-- The moment is as it has to be in a reading with the limits. -/
structure Moment.Sound (limits : Limits) (m : Moment α) : Prop where
  nesting_eq : m.nesting = factorCalls m.calls
  nesting_le : m.nesting ≤ limits.nesting
  made : ∀ a, m.action = .make a → a.height = a.expr.height ∧ a.height ≤ limits.height
  finished : ∀ call succeeded, m.action = .finish call succeeded →
    m.nesting = call.nesting ∧ (succeeded = true → m.left < call.left)

/-- The moment keeps to the limits. -/
structure Moment.Within (limits : Limits) (m : Moment α) : Prop where
  nesting_le : m.nesting ≤ limits.nesting
  height_le : ∀ a, m.action = .make a → a.height ≤ limits.height

theorem Moment.Sound.keeps {m : Moment α} (h : m.Sound limits) : m.Within limits :=
  ⟨h.nesting_le, fun a ha ↦ (h.made a ha).2⟩

/-- The state may be that of a reader with the limits, while a rule with the limits `within` still
has the budget `n`, and the recursion of the reader is bounded by `fuel`. -/
structure ReaderState.Ready (limits within : Limits) (n fuel : Nat) (s : ReaderState α) :
    Prop where
  nesting_eq : s.nesting = factorCalls s.calls
  nesting_le : s.nesting ≤ limits.nesting
  budget : s.nesting + n = within.nesting
  fuel : s.nesting + fuel = limits.nesting + 1

namespace ReaderState.Ready

variable {s s' : ReaderState α}

theorem congr (h : s.Ready limits within n fuel) (hnesting : s'.nesting = s.nesting)
    (hcalls : s'.calls = s.calls) : s'.Ready limits within n fuel := by
  obtain ⟨heq, hle, hbudget, hfuel⟩ := h
  rw [← hnesting] at heq hle hbudget hfuel
  exact ⟨hcalls ▸ heq, hle, hbudget, hfuel⟩

theorem note (h : s.Ready limits within n fuel) (action : Action α) :
    (s.note action).Ready limits within n fuel :=
  h.congr rfl rfl

theorem nesting_le_within (h : s.Ready limits within n fuel) : s.nesting ≤ within.nesting :=
  h.budget ▸ Nat.le_add_right _ _

end ReaderState.Ready

namespace Reading

open ReaderState

/-! ## Outcomes -/

/-- The reading has come from the first state to the result `y`, and the rule to `x`. -/
structure Outcome (limits within : Limits) (used : Nat) (s : ReaderState α)
    (x : Except Failure (Node α × List (Token α))) (y : Except Failure (Node α) × ReaderState α) :
    Prop where
  nesting_eq : y.2.nesting = s.nesting
  calls_eq : y.2.calls = s.calls
  height_eq : ∀ a, y.1 = .ok a → a.height = a.expr.height
  rest_le : ∀ a, y.1 = .ok a → y.2.rest.length + used ≤ s.rest.length
  record : ∃ new, y.2.record = new ++ s.record ∧ (∀ m ∈ new, m.Sound limits) ∧
    ((∀ m ∈ new, m.Within within) ∧ x = y.1.map (·, y.2.rest) ∨
      (∃ m ∈ new, ¬m.Within within) ∧ ∃ left, x = .error ⟨left, .lessNesting⟩)

/-- The reading does what the rule does, as far as this goes, and takes some tokens if it
succeeds. -/
def Follows (limits within : Limits) (n fuel used : Nat) (reading : Reading α (Node α))
    (rule : Rule α) : Prop :=
  ∀ s : ReaderState α, s.Ready limits within n fuel →
    Outcome limits within used s (rule s.rest) (reading s)

variable {s s' : ReaderState α} {x z : Except Failure (Node α × List (Token α))}
  {y : Except Failure (Node α) × ReaderState α} {reading : Reading α (Node α)} {rule : Rule α}
  {a : Node α} {t : Token α} {ts : List (Token α)}

theorem sound_of_ready (hs : s.Ready limits within n fuel) (left : Nat) (action : Action α)
    (hmake : ∀ a, action ≠ .make a) (hfinish : ∀ call ok, action ≠ .finish call ok) :
    Moment.Sound limits ⟨s.nesting, s.calls, left, action⟩ ∧
      Moment.Within within ⟨s.nesting, s.calls, left, action⟩ :=
  ⟨⟨hs.nesting_eq, hs.nesting_le, fun a ha ↦ absurd ha (hmake a),
    fun call ok hcall ↦ absurd hcall (hfinish call ok)⟩,
    ⟨hs.nesting_le_within, fun a ha ↦ absurd ha (hmake a)⟩⟩

theorem sound_make (hs : s.Ready limits within n fuel) (ha : a.height = a.expr.height)
    (hle : a.height ≤ limits.height) :
    Moment.Sound limits ⟨s.nesting, s.calls, s.rest.length, .make a⟩ := by
  refine ⟨hs.nesting_eq, hs.nesting_le, ?_, nofun⟩
  rintro b ⟨⟩
  exact ⟨ha, hle⟩

namespace Outcome

theorem pure (ha : a.height = a.expr.height) (s : ReaderState α) :
    Outcome limits within 0 s (.ok (a, s.rest)) (.ok a, s) := by
  refine ⟨rfl, rfl, ?_, fun _ _ ↦ Nat.le_refl _, [], rfl, nofun, .inl ⟨nofun, rfl⟩⟩
  rintro b ⟨⟩
  exact ha

/-- Only one thing happens, and no token is taken. -/
theorem single {m : Moment α} {result : Except Failure (Node α)}
    (hnesting : s'.nesting = s.nesting) (hcalls : s'.calls = s.calls)
    (hrest : s'.rest = s.rest) (hrecord : s'.record = m :: s.record)
    (hsound : m.Sound limits) (hheight : ∀ a, result = .ok a → a.height = a.expr.height)
    (hresult : m.Within within ∧ x = result.map (·, s'.rest) ∨
      ¬m.Within within ∧ ∃ left, x = .error ⟨left, .lessNesting⟩) :
    Outcome limits within 0 s x (result, s') := by
  refine ⟨hnesting, hcalls, hheight, fun a _ ↦ Nat.le_of_eq (congrArg List.length hrest), [m],
    hrecord, List.forall_mem_singleton.mpr hsound, ?_⟩
  rcases hresult with ⟨hkeeps, hx⟩ | ⟨hnot, hx⟩
  · exact .inl ⟨List.forall_mem_singleton.mpr hkeeps, hx⟩
  · exact .inr ⟨⟨m, List.mem_singleton_self m, hnot⟩, hx⟩

/-- Something happens first, perhaps that tokens are taken. -/
theorem after {taken : Nat} {m : Moment α} (h : Outcome limits within used s' x y)
    (hnesting : s'.nesting = s.nesting) (hcalls : s'.calls = s.calls)
    (hrest : s'.rest.length + taken ≤ s.rest.length) (hrecord : s'.record = m :: s.record)
    (hsound : m.Sound limits) (hkeeps : m.Within within) :
    Outcome limits within (taken + used) s x y := by
  obtain ⟨new, hnew, hall, hresult⟩ := h.record
  refine ⟨h.nesting_eq.trans hnesting, h.calls_eq.trans hcalls, h.height_eq, fun a ha ↦ ?_,
    new ++ [m], ?_, ?_, ?_⟩
  · have hle := h.rest_le a ha
    omega
  · rw [hnew, hrecord, List.append_assoc, List.singleton_append]
  · exact List.forall_mem_append.mpr ⟨hall, List.forall_mem_singleton.mpr hsound⟩
  · rcases hresult with ⟨hall', hx⟩ | ⟨⟨m', hm', hnot⟩, hx⟩
    · exact .inl ⟨List.forall_mem_append.mpr ⟨hall', List.forall_mem_singleton.mpr hkeeps⟩, hx⟩
    · exact .inr ⟨⟨m', List.mem_append_left _ hm', hnot⟩, hx⟩

/-- A first moment beyond the limits of the rule makes it fail. -/
theorem beyond {m : Moment α} (h : Outcome limits limits used s' x y)
    (hnesting : s'.nesting = s.nesting) (hcalls : s'.calls = s.calls) (hrest : s'.rest = s.rest)
    (hrecord : s'.record = m :: s.record) (hsound : m.Sound limits) (hnot : ¬m.Within within)
    (left : Nat) : Outcome limits within used s (.error ⟨left, .lessNesting⟩) y := by
  obtain ⟨new, hnew, hall, -⟩ := h.record
  refine ⟨h.nesting_eq.trans hnesting, h.calls_eq.trans hcalls, h.height_eq, ?_, new ++ [m], ?_, ?_,
    .inr ⟨⟨m, List.mem_append_right _ (List.mem_singleton_self m), hnot⟩, left, rfl⟩⟩
  · rw [← hrest]
    exact h.rest_le
  · rw [hnew, hrecord, List.append_assoc, List.singleton_append]
  · exact List.forall_mem_append.mpr ⟨hall, List.forall_mem_singleton.mpr hsound⟩

theorem enclose {m : Moment α} {result : Except Failure (Node α)} {s₁ s₂ : ReaderState α}
    (h : Outcome limits within used s' x (result, s₁)) (hrest' : s'.rest = s.rest)
    (hrecord' : s'.record = s.record) (hnesting : s₂.nesting = s.nesting)
    (hcalls : s₂.calls = s.calls) (hrest : s₂.rest = s₁.rest) (hrecord : s₂.record = m :: s₁.record)
    (hsound : m.Sound limits) (hkeeps : m.Within within) :
    Outcome limits within used s x (result, s₂) := by
  obtain ⟨new, hnew, hall, hresult⟩ := h.record
  refine ⟨hnesting, hcalls, h.height_eq, ?_, m :: new, ?_,
    List.forall_mem_cons.mpr ⟨hsound, hall⟩, ?_⟩
  · rw [← hrest', hrest]
    exact h.rest_le
  · rw [hrecord, hnew, hrecord', List.cons_append]
  · rcases hresult with ⟨hkeeps', hx⟩ | ⟨⟨m', hm', hnot⟩, hx⟩
    · rw [hrest]
      exact .inl ⟨List.forall_mem_cons.mpr ⟨hkeeps, hkeeps'⟩, hx⟩
    · exact .inr ⟨⟨m', List.mem_cons_of_mem _ hm', hnot⟩, hx⟩

theorem mono (h : Outcome limits within used s x y) (hle : used' ≤ used) :
    Outcome limits within used' s x y :=
  ⟨h.nesting_eq, h.calls_eq, h.height_eq,
    fun a ha ↦ Nat.le_trans (Nat.add_le_add_left hle _) (h.rest_le a ha), h.record⟩

theorem of_error {f : Failure} (h : Outcome limits within used s x (.error f, s'))
    (hz : x = .error f → z = .error f)
    (hlimit : ∀ left, x = .error ⟨left, .lessNesting⟩ → z = .error ⟨left, .lessNesting⟩) :
    Outcome limits within used' s z (.error f, s') := by
  obtain ⟨new, hnew, hall, hresult⟩ := h.record
  refine ⟨h.nesting_eq, h.calls_eq, nofun, nofun, new, hnew, hall, ?_⟩
  rcases hresult with ⟨hkeeps, hx⟩ | ⟨hnot, left, hx⟩
  · exact .inl ⟨hkeeps, hz hx⟩
  · exact .inr ⟨hnot, left, hlimit left hx⟩

/-- The reading goes on from what the first part has come to, perhaps with other tokens, and so does
the rule if it has come to the same. -/
theorem trans {taken : Nat} {result : Except Failure (Node α)} {s₁ s₂ : ReaderState α}
    {x' : Except Failure (Node α × List (Token α))}
    (h : Outcome limits within used s x (result, s₁)) (h' : Outcome limits within used' s₂ x' y)
    (hnesting : s₂.nesting = s₁.nesting) (hcalls : s₂.calls = s₁.calls)
    (hrecord : s₂.record = s₁.record) (hrest : s₂.rest.length + taken ≤ s.rest.length)
    (hz : x = result.map (·, s₁.rest) → z = x')
    (hlimit : ∀ left, x = .error ⟨left, .lessNesting⟩ → z = .error ⟨left, .lessNesting⟩) :
    Outcome limits within (taken + used') s z y := by
  obtain ⟨new, hnew, hall, hresult⟩ := h.record
  obtain ⟨new', hnew', hall', hresult'⟩ := h'.record
  refine ⟨(h'.nesting_eq.trans hnesting).trans h.nesting_eq,
    (h'.calls_eq.trans hcalls).trans h.calls_eq, h'.height_eq, fun b hb ↦ ?_, new' ++ new, ?_, ?_,
    ?_⟩
  · have hle := h'.rest_le b hb
    omega
  · rw [hnew', hrecord, hnew, List.append_assoc]
  · exact List.forall_mem_append.mpr ⟨hall', hall⟩
  · rcases hresult with ⟨hkeeps, hx⟩ | ⟨⟨m, hm, hnot⟩, left, hx⟩
    · rw [hz hx]
      rcases hresult' with ⟨hkeeps', hx'⟩ | ⟨⟨m, hm, hnot⟩, hx'⟩
      · exact .inl ⟨List.forall_mem_append.mpr ⟨hkeeps', hkeeps⟩, hx'⟩
      · exact .inr ⟨⟨m, List.mem_append_left _ hm, hnot⟩, hx'⟩
    · exact .inr ⟨⟨m, List.mem_append_right _ hm, hnot⟩, left, hlimit left hx⟩

end Outcome

theorem outcome_fail (hs : s.Ready limits within n fuel) (expected : Expectation) :
    Outcome limits within used s (.error ⟨s.rest.length, expected⟩) (fail expected s) := by
  obtain ⟨hsound, hkeeps⟩ := sound_of_ready hs s.rest.length .fail nofun nofun
  have hsingle : Outcome limits within 0 s (.error ⟨s.rest.length, expected⟩)
      (.error ⟨s.rest.length, expected⟩, s.note .fail) :=
    .single rfl rfl rfl rfl hsound nofun (.inl ⟨hkeeps, rfl⟩)
  exact hsingle.of_error id fun _ ↦ id

theorem outcome_refuse (hs : s.Ready limits within n fuel) :
    Outcome limits within used s (.error ⟨s.rest.length, .lessNesting⟩) (refuse s) := by
  refine (outcome_fail hs .lessNesting).enclose rfl rfl rfl rfl rfl rfl
    ⟨hs.nesting_eq, hs.nesting_le, nofun, ?_⟩ ⟨hs.nesting_le_within, nofun⟩
  rintro call succeeded ⟨⟩
  exact ⟨rfl, nofun⟩

theorem outcome_finish (hs : s.Ready limits within n fuel) {routine : Routine} {nesting : Nat}
    {result : Except Failure (Node α)} {s₁ s₂ : ReaderState α}
    (h : Outcome limits within (used + 1)
      { s with nesting := nesting, calls := ⟨routine, s.nesting, s.rest.length⟩ :: s.calls } x
      (result, s₁))
    (hnesting : s₂.nesting = s.nesting) (hcalls : s₂.calls = s.calls) (hrest : s₂.rest = s₁.rest)
    (hrecord : s₂.record = s₁.record) :
    Outcome limits within (used + 1) s x
      (result, s₂.note (.finish ⟨routine, s.nesting, s.rest.length⟩ result.isOk)) := by
  have hready : s₂.Ready limits within n fuel := hs.congr hnesting hcalls
  refine h.enclose rfl rfl hnesting hcalls hrest (congrArg _ hrecord)
    ⟨hready.nesting_eq, hready.nesting_le, nofun, ?_⟩ ⟨hready.nesting_le_within, nofun⟩
  rintro call succeeded ⟨⟩
  refine ⟨hnesting, fun hok ↦ ?_⟩
  cases result with
  | ok a =>
    have hle := h.rest_le a rfl
    rw [hrest]
    dsimp only at hle ⊢
    omega
  | error f => cases hok

/-! ## Composition -/

namespace Follows

theorem pure (ha : a.height = a.expr.height) :
    Follows limits within n fuel 0 (Pure.pure a) fun ts ↦ .ok (a, ts) :=
  fun s _ ↦ .pure ha s

theorem mono (h : Follows limits within n fuel used reading rule) (hle : used' ≤ used) :
    Follows limits within n fuel used' reading rule :=
  fun s hs ↦ (h s hs).mono hle

theorem take (h : Follows limits within n fuel used reading rule)
    (hs : s.Ready limits within n fuel) (hrest : s.rest = t :: ts) :
    Outcome limits within (1 + used) s (rule ts) ((Reading.take >>= fun _ ↦ reading) s) := by
  have hnext := h ({ s with rest := s.rest.tail }.note .take) (hs.congr rfl rfl)
  obtain ⟨hsound, hkeeps⟩ := sound_of_ready hs s.rest.tail.length .take nofun nofun
  have htail : ts = s.rest.tail := by rw [hrest, List.tail_cons]
  rw [htail]
  refine hnext.after rfl rfl ?_ rfl hsound hkeeps
  change s.rest.tail.length + 1 ≤ s.rest.length
  rw [hrest]
  exact Nat.le_refl _

/-- One computation after another. -/
theorem bind {next : Node α → Reading α (Node α)} {k : Node α → Rule α}
    (h : Follows limits within n fuel used reading rule)
    (hnext : ∀ a : Node α, a.height = a.expr.height →
      Follows limits within n fuel used' (next a) (k a)) :
    Follows limits within n fuel (used + used') (reading >>= next)
      fun ts ↦ rule ts >>= fun r ↦ k r.1 r.2 := by
  intro s hs
  have hfirst := h s hs
  dsimp only
  match hy : reading s with
  | (.error f, s') =>
    rw [hy] at hfirst
    rw [bind_of_error hy]
    exact hfirst.of_error (fun hx ↦ by rw [hx]; rfl) fun left hx ↦ by rw [hx]; rfl
  | (.ok a, s') =>
    rw [hy] at hfirst
    rw [bind_of_ok hy]
    have hthen := hnext a (hfirst.height_eq a rfl) s' (hs.congr hfirst.nesting_eq hfirst.calls_eq)
    exact hfirst.trans hthen rfl rfl rfl (hfirst.rest_le a rfl) (fun hx ↦ by rw [hx]; rfl)
      fun left hx ↦ by rw [hx]; rfl

theorem attempt {next : Option (Node α) → Reading α (Node α)} {k : Node α → Rule α}
    (h : Follows limits within n fuel used reading rule) (ha : a.height = a.expr.height)
    (hsome : ∀ b : Node α, b.height = b.expr.height →
      Follows limits within n fuel 0 (next (some b)) (k b)) (hnone : next none = Pure.pure a) :
    Follows limits within n fuel 0 (Reading.attempt reading >>= next) fun ts ↦
      match rule ts with
      | .ok (b, rest) => k b rest
      | .error f => if f.expected = .lessNesting then .error f else .ok (a, ts) := by
  intro s hs
  have hfirst := h s hs
  dsimp only
  match hy : reading s with
  | (.error f, s') =>
    rw [hy] at hfirst
    by_cases hlimit : f.expected = .lessNesting
    · -- A limit has been met. The tokens are not given back, and the rule has failed as well.
      have hattempt : Reading.attempt reading s = (.error f, s') := by
        rw [Reading.attempt, hy]
        exact if_pos hlimit
      rw [bind_of_error hattempt]
      exact hfirst.of_error (fun hx ↦ by rw [hx]; exact if_pos hlimit) fun left hx ↦ by rw [hx]; rfl
    · have hattempt : Reading.attempt reading s
          = (.ok none, { s' with rest := s.rest }.note .giveBack) := by
        rw [Reading.attempt, hy]
        exact if_neg hlimit
      rw [bind_of_ok hattempt, hnone]
      have hback : ReaderState.Ready limits within n fuel { s' with rest := s.rest } :=
        hs.congr hfirst.nesting_eq hfirst.calls_eq
      obtain ⟨hsound, hkeeps⟩ := sound_of_ready hback s.rest.length .giveBack nofun nofun
      have hstop : Outcome limits within 0 _ _ _ :=
        Outcome.pure ha ({ s' with rest := s.rest }.note .giveBack)
      have hthen := hstop.after (s := { s' with rest := s.rest }) rfl rfl
        (Nat.le_of_eq (Nat.add_zero _)) rfl hsound hkeeps
      exact hfirst.trans hthen rfl rfl rfl (Nat.le_of_eq (Nat.add_zero _))
        (fun hx ↦ by rw [hx]; exact if_neg hlimit) fun left hx ↦ by rw [hx]; rfl
  | (.ok b, s') =>
    rw [hy] at hfirst
    have hattempt : Reading.attempt reading s = (.ok (some b), s') := by
      rw [Reading.attempt, hy]
    rw [bind_of_ok hattempt]
    have hthen := hsome b (hfirst.height_eq b rfl) s' (hs.congr hfirst.nesting_eq hfirst.calls_eq)
    have hrest : s'.rest.length + 0 ≤ s.rest.length :=
      Nat.le_trans (Nat.add_le_add_left (Nat.zero_le _) _) (hfirst.rest_le b rfl)
    exact hfirst.trans hthen rfl rfl rfl hrest (fun hx ↦ by rw [hx]; rfl)
      fun left hx ↦ by rw [hx]; rfl

theorem call (h : Follows limits within n fuel (used + 1) reading rule) {routine : Routine}
    (hroutine : routine ≠ .factor) :
    Follows limits within n fuel (used + 1) (Reading.call routine reading) rule := by
  intro s hs
  have hcalls : factorCalls (⟨routine, s.nesting, s.rest.length⟩ :: s.calls)
      = factorCalls s.calls :=
    List.countP_cons_of_neg (by simpa using hroutine)
  have hbody := h { s with calls := ⟨routine, s.nesting, s.rest.length⟩ :: s.calls }
    ⟨hs.nesting_eq.trans hcalls.symm, hs.nesting_le, hs.budget, hs.fuel⟩
  rw [Reading.call]
  dsimp only
  generalize reading _ = y at hbody ⊢
  exact outcome_finish hs hbody hbody.nesting_eq (congrArg List.tail hbody.calls_eq) rfl rfl

end Follows

/-! ## Nodes -/

theorem follows_leaf (hpos : 0 < limits.height) (hpos' : 0 < within.height) {e : Expr α}
    (he : e.height = 1) :
    Follows limits within n fuel 0 (leaf e) fun ts ↦ .ok (.leaf e, ts) := by
  intro s hs
  have hsound := sound_make hs (a := .leaf e) he.symm hpos
  have hheight : ∀ a : Node α, Except.ok (ε := Failure) (.leaf e) = .ok a →
      a.height = a.expr.height := by
    rintro a ⟨⟩
    exact he.symm
  refine .single rfl rfl rfl rfl hsound hheight (.inl ⟨⟨hs.nesting_le_within, ?_⟩, rfl⟩)
  rintro a ⟨⟩
  exact hpos'

/-- A node is only made within the limits of the reading, and it is only within those of the rule if
the rule makes it. -/
theorem follows_make (hle : within.height ≤ limits.height) {e : Expr α} {height : Nat}
    (he : height = e.height) :
    Follows limits within n fuel 0 (make limits e height)
      (Node.limited within.height e height) := by
  intro s hs
  rw [Node.limited, make]
  by_cases hlimit : limits.height < height
  · rw [if_pos hlimit, if_pos (Nat.lt_of_le_of_lt hle hlimit)]
    exact outcome_fail hs .lessNesting
  · rw [if_neg hlimit]
    have hsound := sound_make hs (a := ⟨e, height⟩) he (Nat.not_lt.mp hlimit)
    have hheight : ∀ a : Node α, Except.ok (ε := Failure) ⟨e, height⟩ = .ok a →
        a.height = a.expr.height := by
      rintro a ⟨⟩
      exact he
    refine .single rfl rfl rfl rfl hsound hheight ?_
    by_cases hwithin : within.height < height
    · rw [if_pos hwithin]
      exact .inr ⟨fun h ↦ Nat.not_le.mpr hwithin (h.height_le _ rfl), _, rfl⟩
    · rw [if_neg hwithin]
      refine .inl ⟨⟨hs.nesting_le_within, ?_⟩, rfl⟩
      rintro a ⟨⟩
      exact Nat.not_lt.mp hwithin

/-! ## Routines -/

variable {factor : Reading α (Node α)} {factorRule : Rule α} {op : BinaryOp}

theorem follows_binary (hle : within.height ≤ limits.height) {b : Node α}
    (ha : a.height = a.expr.height) (hb : b.height = b.expr.height) :
    Follows limits within n fuel 0
      (make limits (.binary op a.expr b.expr) (1 + max a.height b.height))
      (Node.binary within.height op a b) :=
  follows_make hle (by rw [Expr.height, ha, hb])

theorem follows_unary (hle : within.height ≤ limits.height) {op : UnaryOp}
    (ha : a.height = a.expr.height) :
    Follows limits within n fuel 0 (make limits (.unary op a.expr) (1 + a.height))
      (Node.unary within.height op a) :=
  follows_make hle (by rw [Expr.height, ha])

theorem follows_andThen (hle : within.height ≤ limits.height)
    (h : Follows limits within n fuel used reading rule) (ha : a.height = a.expr.height) :
    Follows limits within n fuel used (andThen limits reading op a)
      (Rule.andThen within.height rule op a) :=
  h.bind fun _ hb ↦ follows_binary hle ha hb

theorem follows_round (hle : within.height ≤ limits.height)
    (h : Follows limits within n fuel 1 reading rule) (ha : a.height = a.expr.height)
    {loop : Node α → Reading α (Node α)} {loopRule : Node α → Rule α}
    (hloop : ∀ a : Node α, a.height = a.expr.height →
      Follows limits within n fuel 0 (loop a) (loopRule a)) :
    Follows limits within n fuel 0 (andThen limits reading op a >>= loop) fun ts ↦
      Rule.andThen within.height rule op a ts >>= fun r ↦ loopRule r.1 r.2 :=
  ((follows_andThen hle h ha).bind hloop).mono (Nat.zero_le _)

private theorem follows_factors (hle : within.height ≤ limits.height)
    (h : Follows limits within n fuel 1 factor factorRule) (rounds : Nat) {a : Node α}
    (ha : a.height = a.expr.height) :
    Follows limits within n fuel 0 (factors limits factor rounds a)
      (Rule.factors within.height factorRule rounds a) := by
  induction rounds generalizing a with
  | zero => exact .pure ha
  | succ rounds ih =>
    have hround {op : BinaryOp} : Follows limits within n fuel 0
        (andThen limits factor op a >>= factors limits factor rounds) _ :=
      follows_round hle h ha fun a ha ↦ ih ha
    intro s hs
    obtain ⟨rest, nesting, calls, record⟩ := s
    match rest with
    | .star :: ts => exact (hround.take hs rfl).mono (Nat.zero_le _)
    | .slash :: ts => exact (hround.take hs rfl).mono (Nat.zero_le _)
    | .bar :: ts =>
      exact h.attempt ha (fun b hb ↦ (follows_binary hle ha hb).bind fun c hc ↦ ih hc) rfl _ hs
    | .number _ :: _ | .letter _ :: _ | .openParen :: _ => exact hround _ hs
    | [] | .plus :: _ | .minus :: _ | .caret :: _ | .closeParen :: _ => exact .pure ha _

theorem follows_term (hle : within.height ≤ limits.height)
    (h : Follows limits within n fuel 1 factor factorRule) :
    Follows limits within n fuel 1 (term limits factor) (Rule.term within.height factorRule) := by
  have hloop (a : Node α) (ha : a.height = a.expr.height) :
      Follows limits within n fuel 0 (left >>= fun rounds ↦ factors limits factor rounds a)
        fun ts ↦ Rule.factors within.height factorRule ts.length a ts :=
    fun s hs ↦ follows_factors hle h s.rest.length ha s hs
  exact (h.bind hloop).call nofun

private theorem follows_terms (hle : within.height ≤ limits.height)
    (h : Follows limits within n fuel 1 factor factorRule) (rounds : Nat) {a : Node α}
    (ha : a.height = a.expr.height) :
    Follows limits within n fuel 0 (terms limits factor rounds a)
      (Rule.terms within.height factorRule rounds a) := by
  induction rounds generalizing a with
  | zero => exact .pure ha
  | succ rounds ih =>
    have hround {op : BinaryOp} : Follows limits within n fuel 0
        (andThen limits (term limits factor) op a >>= terms limits factor rounds) _ :=
      follows_round hle (follows_term hle h) ha fun a ha ↦ ih ha
    intro s hs
    obtain ⟨rest, nesting, calls, record⟩ := s
    match rest with
    | .plus :: ts => exact (hround.take hs rfl).mono (Nat.zero_le _)
    | .minus :: ts => exact (hround.take hs rfl).mono (Nat.zero_le _)
    | [] | .number _ :: _ | .letter _ :: _ | .star :: _ | .slash :: _ | .caret :: _
    | .openParen :: _ | .closeParen :: _ | .bar :: _ => exact .pure ha _

theorem follows_expr (hle : within.height ≤ limits.height)
    (h : Follows limits within n fuel 1 factor factorRule) :
    Follows limits within n fuel 1 (expr limits factor) (Rule.expr within.height factorRule) := by
  have hloop (a : Node α) (ha : a.height = a.expr.height) :
      Follows limits within n fuel 0 (left >>= fun rounds ↦ terms limits factor rounds a)
        fun ts ↦ Rule.terms within.height factorRule ts.length a ts :=
    fun s hs ↦ follows_terms hle h s.rest.length ha s hs
  exact ((follows_term hle h).bind hloop).call nofun

private theorem follows_endParens (ha : a.height = a.expr.height) :
    Follows limits within n fuel 0 (endParens a) (Rule.endParens a) := by
  intro s hs
  obtain ⟨rest, nesting, calls, record⟩ := s
  match rest with
  | .closeParen :: ts => exact ((Follows.pure ha).take hs rfl).mono (Nat.zero_le _)
  | [] | .number _ :: _ | .letter _ :: _ | .plus :: _ | .minus :: _ | .star :: _ | .slash :: _
  | .caret :: _ | .openParen :: _ | .bar :: _ => exact outcome_fail hs .closeParen

private theorem follows_endBars (hle : within.height ≤ limits.height)
    (ha : a.height = a.expr.height) :
    Follows limits within n fuel 0 (endBars limits a) (Rule.endBars within.height a) := by
  intro s hs
  obtain ⟨rest, nesting, calls, record⟩ := s
  match rest with
  | .bar :: ts => exact ((follows_unary hle ha).take hs rfl).mono (Nat.zero_le _)
  | [] | .number _ :: _ | .letter _ :: _ | .plus :: _ | .minus :: _ | .star :: _ | .slash :: _
  | .caret :: _ | .openParen :: _ | .closeParen :: _ => exact outcome_fail hs .closeBar

private theorem follows_primary (hpos : 0 < within.height) (hle : within.height ≤ limits.height)
    (h : Follows limits within n fuel 1 factor factorRule) :
    Follows limits within n fuel 1 (primary limits factor)
      (Rule.primary within.height factorRule) := by
  have hpos' : 0 < limits.height := Nat.lt_of_lt_of_le hpos hle
  have hexpr := follows_expr hle h
  refine Follows.call (fun s hs ↦ ?_) nofun
  obtain ⟨rest, nesting, calls, record⟩ := s
  match rest with
  | .openParen :: ts =>
    exact ((hexpr.bind fun a ha ↦ follows_endParens ha).take hs rfl).mono (Nat.le_add_right 1 _)
  | .bar :: ts =>
    exact ((hexpr.bind fun a ha ↦ follows_endBars hle ha).take hs rfl).mono (Nat.le_add_right 1 _)
  | .letter v :: ts => exact (follows_leaf hpos' hpos rfl).take hs rfl
  | .number c :: ts => exact (follows_leaf hpos' hpos rfl).take hs rfl
  | [] | .plus :: _ | .minus :: _ | .star :: _ | .slash :: _ | .caret :: _ | .closeParen :: _ =>
    exact outcome_fail hs .primary

private theorem follows_signed (hpos : 0 < within.height) (hle : within.height ≤ limits.height)
    (h : Follows limits within n fuel 1 factor factorRule) :
    Follows limits within n fuel 1 (signed limits factor)
      (Rule.signed within.height factorRule) := by
  have hprimary := follows_primary hpos hle h
  refine Follows.call (fun s hs ↦ ?_) nofun
  obtain ⟨rest, nesting, calls, record⟩ := s
  match rest with
  | .minus :: ts =>
    exact ((hprimary.bind fun a ha ↦ follows_unary hle ha).take hs rfl).mono (Nat.le_add_right 1 _)
  | [] | .number _ :: _ | .letter _ :: _ | .plus :: _ | .star :: _ | .slash :: _ | .caret :: _
  | .openParen :: _ | .closeParen :: _ | .bar :: _ => exact hprimary _ hs

private theorem follows_exponent (hle : within.height ≤ limits.height)
    (h : Follows limits within n fuel 1 factor factorRule) (ha : a.height = a.expr.height) :
    Follows limits within n fuel 0 (exponent limits factor a)
      (Rule.exponent within.height factorRule a) := by
  intro s hs
  obtain ⟨rest, nesting, calls, record⟩ := s
  match rest with
  | .caret :: ts => exact ((follows_andThen hle h ha).take hs rfl).mono (Nat.zero_le _)
  | [] | .number _ :: _ | .letter _ :: _ | .plus :: _ | .minus :: _ | .star :: _ | .slash :: _
  | .openParen :: _ | .closeParen :: _ | .bar :: _ => exact .pure ha _

theorem follows_power (hpos : 0 < within.height) (hle : within.height ≤ limits.height)
    (h : Follows limits within n fuel 1 factor factorRule) :
    Follows limits within n fuel 1 (power limits factor) (Rule.power within.height factorRule) :=
  ((follows_signed hpos hle h).bind fun _ ha ↦ follows_exponent hle h ha).call nofun

/-- The state in which a factor is read. -/
def counting (s : ReaderState α) : ReaderState α :=
  { s with nesting := s.nesting + 1, calls := ⟨.factor, s.nesting, s.rest.length⟩ :: s.calls }

theorem ready_counting (hs : s.Ready limits within n (fuel + 1))
    (hlimit : s.nesting < limits.nesting) {within' : Limits} {m : Nat}
    (hbudget : s.nesting + 1 + m = within'.nesting) :
    (counting s).Ready limits within' m fuel := by
  refine ⟨?_, hlimit, hbudget, ?_⟩
  · rw [factorCalls, counting, List.countP_cons_of_pos (by rfl)]
    exact congrArg (· + 1) hs.nesting_eq
  · rw [counting, Nat.add_assoc, Nat.add_comm 1]
    exact hs.fuel

private theorem call_counted (hy : reading ((counting s).note .count) = y) :
    Reading.call .factor (counted reading) s
      = (y.1, { y.2 with nesting := y.2.nesting - 1, calls := y.2.calls.tail }.note
          (.finish ⟨.factor, s.nesting, s.rest.length⟩ y.1.isOk)) := by
  rw [← hy]
  rfl

private theorem outcome_counted (hs : s.Ready limits within n fuel)
    (h : Outcome limits within 1 (counting s) x (reading ((counting s).note .count))) :
    Outcome limits within 1 s x (Reading.call .factor (counted reading) s) := by
  rw [call_counted rfl]
  generalize reading ((counting s).note .count) = y at h ⊢
  have hnesting : y.2.nesting - 1 = s.nesting := Nat.sub_eq_of_eq_add h.nesting_eq
  exact outcome_finish hs h hnesting (congrArg List.tail h.calls_eq) rfl rfl

/-- **A factor follows its rule**, as far as the rule goes. By induction on the bound of the
recursion. If the rule has no budget left, but the reading goes on, then the moment at which the
factor is counted is beyond the limits of the rule. -/
theorem follows_factor (hpos : 0 < within.height) (hle : within.height ≤ limits.height)
    (hnesting : within.nesting ≤ limits.nesting) :
    Follows limits within n fuel 1 (Reading.factor limits fuel : Reading α (Node α))
      (Rule.factor within.height n) := by
  induction fuel generalizing within n with
  | zero =>
    intro s hs
    have hle := hs.nesting_le
    have hfuel := hs.fuel
    omega
  | succ fuel ih =>
    intro s hs
    have hbudget := hs.budget
    change Outcome limits within 1 s _ ((if limits.nesting ≤ s.nesting then refuse
      else Reading.call .factor (counted (power limits (Reading.factor limits fuel)))) s)
    by_cases hlimit : limits.nesting ≤ s.nesting
    · rw [if_pos hlimit]
      obtain rfl : n = 0 := by omega
      exact outcome_refuse hs
    have hlt : s.nesting < limits.nesting := Nat.not_le.mp hlimit
    rw [if_neg hlimit]
    refine outcome_counted hs ?_
    cases n with
    | zero =>
      -- The rule has failed, but the reading goes on. It follows the rules with its own limits.
      have hpos' : 0 < limits.height := Nat.lt_of_lt_of_le hpos hle
      have hready := ready_counting hs hlt (Nat.add_sub_cancel' hlt)
      have hbody := follows_power hpos' (Nat.le_refl _)
        (ih hpos' (Nat.le_refl _) (Nat.le_refl _)) _ (hready.note .count)
      obtain ⟨hsound, -⟩ := sound_of_ready hready s.rest.length .count nofun nofun
      have hover : within.nesting < (counting s).nesting :=
        Nat.lt_succ_of_le (Nat.le_of_eq hbudget.symm)
      exact hbody.beyond (s := counting s) rfl rfl rfl rfl hsound
        (fun h ↦ Nat.not_le.mpr hover h.nesting_le) _
    | succ n =>
      have hready : (counting s).Ready limits within n fuel := ready_counting hs hlt (by omega)
      have hbody := follows_power hpos hle (ih hpos hle hnesting) _ (hready.note .count)
      obtain ⟨hsound, hkeeps⟩ := sound_of_ready hready s.rest.length .count nofun nofun
      exact hbody.after rfl rfl (Nat.le_refl _) rfl hsound hkeeps

/-! ## Formulas -/

/-- The rule that ends a formula. -/
def endRule (a : Node α) : Rule α := fun ts ↦
  if ts.isEmpty then .ok (a, ts) else .error ⟨ts.length, .operatorOrEnd⟩

/-- The rule that reads a formula that takes up all tokens. -/
def formulaRule (limits : Limits) : Rule α := fun ts ↦
  Rule.expr limits.height (Rule.factor limits.height limits.nesting) ts >>= fun r ↦ endRule r.1 r.2

private theorem follows_endFormula (ha : a.height = a.expr.height) :
    Follows limits within n fuel 0 (endFormula a) (endRule a) := by
  intro s hs
  obtain ⟨rest, nesting, calls, record⟩ := s
  cases rest with
  | nil => exact .pure ha _
  | cons t ts => exact outcome_fail hs .operatorOrEnd

private theorem follows_formula (hpos : 0 < within.height) (hle : within.height ≤ limits.height)
    (hnesting : within.nesting ≤ limits.nesting) :
    Follows limits within within.nesting (limits.nesting + 1) 1
      (formula limits : Reading α (Node α)) (formulaRule within) :=
  (follows_expr hle (follows_factor hpos hle hnesting)).bind fun _ ha ↦ follows_endFormula ha

/-- **What becomes of a formula.** -/
theorem outcome_formula (hpos : 0 < within.height) (hle : within.height ≤ limits.height)
    (hnesting : within.nesting ≤ limits.nesting) (ts : List (Token α)) :
    Outcome limits within 1 (.initial ts) (formulaRule within ts) (formula limits (.initial ts)) :=
  follows_formula hpos hle hnesting (.initial ts)
    ⟨rfl, Nat.zero_le _, Nat.zero_add _, Nat.zero_add _⟩

theorem ofTokens_eq (ts : List (Token α)) :
    Expr.ofTokens ts = (formulaRule .parser ts).map (·.1.expr) := by
  rw [Expr.ofTokens, formulaRule]
  change _ = ((Rule.expr maxHeight (Rule.factor maxHeight maxNesting) ts >>= _).map _)
  cases Rule.expr maxHeight (Rule.factor maxHeight maxNesting) ts with
  | error f => rfl
  | ok r =>
    obtain ⟨a, rest⟩ := r
    cases rest <;> rfl

/-- **All moments of a reading are sound.** -/
theorem sound_of_mem_record (hpos : 0 < limits.height) (ts : List (Token α)) :
    ∀ m ∈ (formula limits (.initial ts)).2.record, m.Sound limits := by
  obtain ⟨new, hnew, hsound, -⟩ :=
    (outcome_formula hpos (Nat.le_refl _) (Nat.le_refl _) ts).record
  rw [hnew, ReaderState.initial, List.append_nil]
  exact hsound

theorem formulaRule_eq (hpos : 0 < limits.height) (ts : List (Token α)) :
    formulaRule limits ts = (formula limits (.initial ts)).1.map
      (·, (formula limits (.initial ts)).2.rest) := by
  obtain ⟨new, -, hsound, ⟨-, hrule⟩ | ⟨⟨m, hm, hnot⟩, -⟩⟩ :=
    (outcome_formula hpos (Nat.le_refl _) (Nat.le_refl _) ts).record
  · exact hrule
  · exact absurd (hsound m hm).keeps hnot

theorem ofTokens_eq_formula (ts : List (Token α)) :
    Expr.ofTokens ts = (formula .parser (.initial ts)).1.map (·.expr) := by
  rw [ofTokens_eq, formulaRule_eq (by decide)]
  cases (formula .parser (.initial ts)).1 <;> rfl

end Reading
end ImplicitPlot
