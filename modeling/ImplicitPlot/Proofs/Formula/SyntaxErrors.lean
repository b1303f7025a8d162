import ImplicitPlot.Proofs.Formula.Lexemes
import ImplicitPlot.Proofs.Formula.Lookahead

/-!
# Where formulas go wrong

A failure says how many tokens were left. The tokens before these are the beginning of a formula
(`Grammar.Begins`): each rule that fails has read the beginning of what its symbol derives. Without
bars, no formula begins with the first of the tokens that are left as well: the parser would read
such a formula to its end, while its failure depends on no token after that one.

The formula may have bars after the tokens at hand, and the parser does not read all formulas with
bars. But there is always one without bars, with parentheses in their place.
-/

namespace ImplicitPlot

open Grammar

variable {α : Type} {limit n : Nat}

/-! ## Beginnings -/

namespace Grammar

variable {s : Symbol} {ts us : List (Token α)} {a e : Expr α}

/-- The tokens can be continued to what the symbol derives. -/
def Begins (s : Symbol) (ts : List (Token α)) : Prop := ∃ rest n e, Derives s n (ts ++ rest) e

theorem Derives.begins (h : Derives s n ts e) : Begins s ts :=
  ⟨[], n, e, by rwa [List.append_nil]⟩

namespace Begins

theorem parens (h : Begins .expr ts) : Begins .primary (.openParen :: ts) := by
  obtain ⟨rest, n, e, hd⟩ := h
  exact ⟨rest ++ [.closeParen], n, e, by simpa using Derives.parens hd⟩

theorem bars (h : Begins .expr ts) : Begins .primary (.bar :: ts) := by
  obtain ⟨rest, n, e, hd⟩ := h
  exact ⟨rest ++ [.bar], n, _, by simpa using Derives.bars hd⟩

theorem unsigned (h : Begins .primary ts) : Begins .signed ts := by
  obtain ⟨rest, n, e, hd⟩ := h
  exact ⟨rest, n, e, .unsigned hd⟩

theorem negated (h : Begins .primary ts) : Begins .signed (.minus :: ts) := by
  obtain ⟨rest, n, e, hd⟩ := h
  exact ⟨rest, n, _, .negated hd⟩

theorem operand (h : Begins .signed ts) : Begins .factor ts := by
  obtain ⟨rest, n, e, hd⟩ := h
  exact ⟨rest, n + 1, e, .operand hd⟩

theorem factor (h : Begins .factor ts) : Begins .term ts := by
  obtain ⟨rest, n, e, hd⟩ := h
  exact ⟨rest, n, e, .factor hd⟩

theorem term (h : Begins .term ts) : Begins .expr ts := by
  obtain ⟨rest, n, e, hd⟩ := h
  exact ⟨rest, n, e, .term hd⟩

/-- A first part that is complete, and the beginning of a second part. -/
theorem join {s s' s'' : Symbol} (ms : List (Token α)) {k : Nat} {op : BinaryOp}
    (ha : Derives s n ts a) (hb : Begins s' us)
    (hjoin : ∀ {m rest b}, Derives s m ts a → Derives s' m (us ++ rest) b →
      Derives s'' (m + k) (ts ++ (ms ++ (us ++ rest))) (.binary op a b)) :
    Begins s'' (ts ++ (ms ++ us)) := by
  obtain ⟨rest, m, b, hd⟩ := hb
  have hboth := hjoin (ha.mono (Nat.le_max_left n m)) (hd.mono (Nat.le_max_right n m))
  exact ⟨rest, _, _, by simpa using hboth⟩

theorem power (ha : Derives .signed n ts a) (hb : Begins .factor us) :
    Begins .factor (ts ++ ([.caret] ++ us)) :=
  join [.caret] (k := 1) ha hb fun ha hb ↦ .power ha hb

theorem times (ha : Derives .term n ts a) (hb : Begins .factor us) :
    Begins .term (ts ++ ([.star] ++ us)) :=
  join [.star] (k := 0) ha hb fun ha hb ↦ .times ha hb

theorem divided (ha : Derives .term n ts a) (hb : Begins .factor us) :
    Begins .term (ts ++ ([.slash] ++ us)) :=
  join [.slash] (k := 0) ha hb fun ha hb ↦ .divided ha hb

theorem plus (ha : Derives .expr n ts a) (hb : Begins .term us) :
    Begins .expr (ts ++ ([.plus] ++ us)) :=
  join [.plus] (k := 0) ha hb fun ha hb ↦ .plus ha hb

theorem minus (ha : Derives .expr n ts a) (hb : Begins .term us) :
    Begins .expr (ts ++ ([.minus] ++ us)) :=
  join [.minus] (k := 0) ha hb fun ha hb ↦ .minus ha hb

/-- The beginning of a factor next to a term has no sign in front, but there may be nothing of the
factor yet. -/
theorem adjacent (ha : Derives .term n ts a) (hb : Begins .factor us)
    (hsign : us.head? ≠ some .minus) : Begins .term (ts ++ us) := by
  cases us with
  | nil =>
    rw [List.append_nil]
    exact ha.begins
  | cons t us => exact join [] (k := 0) ha hb fun ha hb ↦ .adjacent ha hb hsign

end Begins

private theorem begins_nil (s : Symbol) : Begins s ([] : List (Token α)) := by
  have hprimary : Derives .primary 0 [.letter .x] (.var .x : Expr α) := .letter 0 .x
  have hfactor : Derives .factor 1 [.letter .x] (.var .x : Expr α) := .operand (.unsigned hprimary)
  cases s with
  | primary => exact ⟨_, _, _, hprimary⟩
  | signed => exact ⟨_, _, _, .unsigned hprimary⟩
  | factor => exact ⟨_, _, _, hfactor⟩
  | term => exact ⟨_, _, _, .factor hfactor⟩
  | expr => exact ⟨_, _, _, .term (.factor hfactor)⟩

/-! ## Parentheses in place of bars -/

/-- The second token is the first, or a parenthesis in place of a bar. -/
inductive Unbarred : Token α → Token α → Prop
  | same {t : Token α} (h : t ≠ .bar) : Unbarred t t
  | opening : Unbarred .bar .openParen
  | closing : Unbarred .bar .closeParen

theorem Unbarred.head?_ne_minus (h : List.Forall₂ Unbarred ts us)
    (hsign : ts.head? ≠ some .minus) : us.head? ≠ some .minus := by
  cases h with
  | nil => nofun
  | cons hhead _ =>
    cases hhead with
    | same => exact hsign
    | opening | closing => nofun

/-- **A formula is still one with parentheses in place of its bars.** -/
theorem Derives.exists_unbarred (h : Derives s n ts e) :
    ∃ us e', Derives s n us e' ∧ List.Forall₂ Unbarred ts us := by
  induction h with
  | letter n v => exact ⟨_, _, .letter n v, .cons (.same nofun) .nil⟩
  | number n c => exact ⟨_, _, .number n c, .cons (.same nofun) .nil⟩
  | parens _ ih =>
    obtain ⟨us, e', hd, hus⟩ := ih
    exact ⟨_, e', .parens hd, .cons (.same nofun) (List.rel_append hus (.cons (.same nofun) .nil))⟩
  | bars _ ih =>
    obtain ⟨us, e', hd, hus⟩ := ih
    exact ⟨_, e', .parens hd, .cons .opening (List.rel_append hus (.cons .closing .nil))⟩
  | unsigned _ ih =>
    obtain ⟨us, e', hd, hus⟩ := ih
    exact ⟨us, e', .unsigned hd, hus⟩
  | negated _ ih =>
    obtain ⟨us, e', hd, hus⟩ := ih
    exact ⟨_, _, .negated hd, .cons (.same nofun) hus⟩
  | operand _ ih =>
    obtain ⟨us, e', hd, hus⟩ := ih
    exact ⟨us, e', .operand hd, hus⟩
  | factor _ ih =>
    obtain ⟨us, e', hd, hus⟩ := ih
    exact ⟨us, e', .factor hd, hus⟩
  | term _ ih =>
    obtain ⟨us, e', hd, hus⟩ := ih
    exact ⟨us, e', .term hd, hus⟩
  | power _ _ iha ihb =>
    obtain ⟨us, a', hda, hus⟩ := iha
    obtain ⟨vs, b', hdb, hvs⟩ := ihb
    exact ⟨_, _, .power hda hdb, List.rel_append hus (.cons (.same nofun) hvs)⟩
  | times _ _ iha ihb =>
    obtain ⟨us, a', hda, hus⟩ := iha
    obtain ⟨vs, b', hdb, hvs⟩ := ihb
    exact ⟨_, _, .times hda hdb, List.rel_append hus (.cons (.same nofun) hvs)⟩
  | divided _ _ iha ihb =>
    obtain ⟨us, a', hda, hus⟩ := iha
    obtain ⟨vs, b', hdb, hvs⟩ := ihb
    exact ⟨_, _, .divided hda hdb, List.rel_append hus (.cons (.same nofun) hvs)⟩
  | adjacent _ _ hsign iha ihb =>
    obtain ⟨us, a', hda, hus⟩ := iha
    obtain ⟨vs, b', hdb, hvs⟩ := ihb
    have hsign' := Unbarred.head?_ne_minus hvs hsign
    exact ⟨_, _, .adjacent hda hdb hsign', List.rel_append hus hvs⟩
  | plus _ _ iha ihb =>
    obtain ⟨us, a', hda, hus⟩ := iha
    obtain ⟨vs, b', hdb, hvs⟩ := ihb
    exact ⟨_, _, .plus hda hdb, List.rel_append hus (.cons (.same nofun) hvs)⟩
  | minus _ _ iha ihb =>
    obtain ⟨us, a', hda, hus⟩ := iha
    obtain ⟨vs, b', hdb, hvs⟩ := ihb
    exact ⟨_, _, .minus hda hdb, List.rel_append hus (.cons (.same nofun) hvs)⟩

theorem Unbarred.bar_notMem (h : List.Forall₂ Unbarred ts us) : .bar ∉ us := by
  induction h with
  | nil => nofun
  | cons hhead _ ih =>
    rw [List.mem_cons, not_or]
    refine ⟨?_, ih⟩
    cases hhead with
    | same hne => exact hne.symm
    | opening | closing => nofun

theorem Unbarred.exists_append {rest : List (Token α)} (h : List.Forall₂ Unbarred (ts ++ rest) us)
    (hbar : .bar ∉ ts) : ∃ rest', us = ts ++ rest' := by
  induction ts generalizing us with
  | nil => exact ⟨us, rfl⟩
  | cons t ts ih =>
    rw [List.mem_cons, not_or] at hbar
    cases h with
    | cons hhead htail =>
      obtain ⟨rest', rfl⟩ := ih htail hbar.2
      cases hhead with
      | same => exact ⟨rest', rfl⟩
      | opening | closing => exact absurd rfl hbar.1

theorem Begins.exists_unbarred (h : Begins s ts) (hbar : .bar ∉ ts) :
    ∃ rest n e, Derives s n (ts ++ rest) e ∧ .bar ∉ ts ++ rest := by
  obtain ⟨rest, n, e, hd⟩ := h
  obtain ⟨us, e', hd', hus⟩ := hd.exists_unbarred
  obtain ⟨rest', rfl⟩ := Unbarred.exists_append hus hbar
  exact ⟨rest', n, e', hd', Unbarred.bar_notMem hus⟩

end Grammar

/-! ## Rules that fail -/

namespace Rule

/-- Reading has stopped at tokens before which, together with those read earlier, there is the
beginning of what the symbol derives; or it has stopped at a limit. -/
def FailsOn (s : Symbol) (pre ts : List (Token α)) (f : Failure) : Prop :=
  f.expected ≠ .lessNesting → ∃ used rest, ts = used ++ rest ∧ f.remaining = rest.length ∧
    Begins s (pre ++ used)

/-- A rule only fails after the beginning of what its symbol derives. -/
def FailsWithin (s : Symbol) (rule : Rule α) : Prop :=
  ∀ {ts : List (Token α)} {f : Failure}, rule ts = .error f → FailsOn s [] ts f

variable {s : Symbol} {rule factor : Rule α} {a : Node α} {f : Failure}
  {pre ts : List (Token α)}

theorem FailsOn.imp {s' : Symbol} {pre' : List (Token α)} (h : FailsOn s pre ts f)
    (hbegins : ∀ used rest, ts = used ++ rest → Begins s (pre ++ used) → Begins s' (pre' ++ used)) :
    FailsOn s' pre' ts f := by
  intro hdeep
  obtain ⟨used, rest, hts, hremaining, hused⟩ := h hdeep
  exact ⟨used, rest, hts, hremaining, hbegins used rest hts hused⟩

/-- Tokens that have been read count among those read earlier. -/
theorem FailsOn.append {ms : List (Token α)} (h : FailsOn s (pre ++ ms) ts f) :
    FailsOn s pre (ms ++ ts) f := by
  intro hdeep
  obtain ⟨used, rest, rfl, hremaining, hused⟩ := h hdeep
  exact ⟨ms ++ used, rest, (List.append_assoc _ _ _).symm, hremaining,
    by rwa [← List.append_assoc]⟩

private theorem failsOn_here {expected : Expectation} (h : Begins s pre) :
    FailsOn s pre ts ⟨ts.length, expected⟩ :=
  fun _ ↦ ⟨[], ts, rfl, rfl, by rwa [List.append_nil]⟩

theorem expected_of_limited {e : Expr α} {height : Nat}
    (h : Node.limited limit e height ts = .error f) : f.expected = .lessNesting := by
  rw [Node.limited] at h
  split at h
  · cases h
    rfl
  · cases h

theorem fails_andThen (hrule : FailsWithin s rule) {op : BinaryOp}
    (h : andThen limit rule op a ts = .error f) : FailsOn s [] ts f := by
  rcases cases_of_bind_eq_error h with hfails | ⟨r, -, hnode⟩
  · exact hrule hfails
  · exact fun hdeep ↦ absurd (expected_of_limited hnode) hdeep

/-- One more operand is missed after the tokens `ms`, or the loop fails later. -/
theorem fails_round {s' : Symbol} (ms : List (Token α)) (hrule : FailsWithin s' rule)
    (hreads : Reads limit n s' rule) {op : BinaryOp} (ha : a.Fits limit) {loop : Node α → Rule α}
    (hloop : ∀ {c ts pre}, c.Fits limit → Derives s n pre c.expr → loop c ts = .error f →
      FailsOn s pre ts f)
    (hjoin : ∀ {used mid e}, ts = used ++ mid → Derives s' n used e →
      Derives s n (pre ++ (ms ++ used)) (.binary op a.expr e))
    (hbegins : ∀ {used mid}, ts = used ++ mid → Begins s' used → Begins s (pre ++ (ms ++ used)))
    (h : (andThen limit rule op a ts >>= fun r ↦ loop r.1 r.2) = .error f) :
    FailsOn s pre (ms ++ ts) f := by
  refine FailsOn.append ?_
  rcases cases_of_bind_eq_error h with hfails | ⟨⟨c, mid⟩, hc, hfails⟩
  · refine (fails_andThen hrule hfails).imp fun used rest hts hused ↦ ?_
    rw [List.append_assoc]
    exact hbegins hts hused
  · obtain ⟨used, e, rfl, hd, hexpr, hfits⟩ := reads_andThen hreads ha hc
    refine FailsOn.append ?_
    rw [List.append_assoc]
    exact hloop hfits (hexpr ▸ hjoin rfl hd) hfails

/-- **The loop over factors** fails after the beginning of a longer term. -/
theorem fails_factors (hfactor : FailsWithin .factor factor) (hreads : Reads limit n .factor factor)
    {fuel : Nat} (ha : a.Fits limit) (hpre : Derives .term n pre a.expr)
    (h : factors limit factor fuel a ts = .error f) : FailsOn .term pre ts f := by
  induction fuel generalizing a ts pre with
  | zero => cases h
  | succ fuel ih =>
    have hadjacent {t : Token α} {us : List (Token α)} (ht : t.startsPrimary = true)
        (h : (andThen limit factor .mul a (t :: us) >>= fun r ↦
          factors limit factor fuel r.1 r.2) = .error f) : FailsOn .term pre (t :: us) f := by
      refine fails_round [] hfactor hreads ha ih ?_ ?_ h
      · intro used mid e hts hd
        exact .adjacent hpre hd (hd.head?_ne_minus hts ht)
      · intro used mid hts hused
        refine Begins.adjacent hpre hused ?_
        -- What has been read of the factor starts with `t`, if it is not empty.
        cases used with
        | nil => nofun
        | cons t' used =>
          cases hts
          rintro ⟨⟩
          cases ht
    match ts with
    | .star :: ts =>
      exact fails_round [.star] hfactor hreads ha ih (fun _ hd ↦ .times hpre hd)
        (fun _ hused ↦ .times hpre hused) h
    | .slash :: ts =>
      exact fails_round [.slash] hfactor hreads ha ih (fun _ hd ↦ .divided hpre hd)
        (fun _ hused ↦ .divided hpre hused) h
    | .bar :: ts =>
      rw [factors_bar] at h
      split at h
      · exact hadjacent rfl h
      · split at h
        next hlimit =>
          cases h
          exact fun hdeep ↦ absurd hlimit hdeep
        next => cases h
    | .number _ :: _ | .letter _ :: _ | .openParen :: _ => exact hadjacent rfl h
    | [] => cases h
    | .plus :: _ | .minus :: _ | .caret :: _ | .closeParen :: _ => cases h

theorem fails_term (hfactor : FailsWithin .factor factor) (hreads : Reads limit n .factor factor) :
    FailsWithin .term (term limit factor) := by
  intro ts f h
  rcases cases_of_bind_eq_error h with hfails | ⟨⟨a, mid⟩, ha, hfails⟩
  · exact (hfactor hfails).imp fun used rest _ hused ↦ hused.factor
  · obtain ⟨used, rfl, hd, hfits⟩ := hreads ha
    exact (fails_factors hfactor hreads hfits (.factor hd) hfails).append

/-- **The loop over terms** fails after the beginning of a longer sum. -/
theorem fails_terms (hfactor : FailsWithin .factor factor) (hreads : Reads limit n .factor factor)
    {fuel : Nat} (ha : a.Fits limit) (hpre : Derives .expr n pre a.expr)
    (h : terms limit factor fuel a ts = .error f) : FailsOn .expr pre ts f := by
  induction fuel generalizing a ts pre with
  | zero => cases h
  | succ fuel ih =>
    have hterm : FailsWithin .term (term limit factor) := fails_term hfactor hreads
    have hreadsTerm : Reads limit n .term (term limit factor) := reads_term hreads
    match ts with
    | .plus :: ts =>
      exact fails_round [.plus] hterm hreadsTerm ha ih (fun _ hd ↦ .plus hpre hd)
        (fun _ hused ↦ .plus hpre hused) h
    | .minus :: ts =>
      exact fails_round [.minus] hterm hreadsTerm ha ih (fun _ hd ↦ .minus hpre hd)
        (fun _ hused ↦ .minus hpre hused) h
    | [] => cases h
    | .number _ :: _ | .letter _ :: _ | .star :: _ | .slash :: _ | .caret :: _ | .openParen :: _
    | .closeParen :: _ | .bar :: _ => cases h

theorem fails_expr (hfactor : FailsWithin .factor factor) (hreads : Reads limit n .factor factor) :
    FailsWithin .expr (expr limit factor) := by
  intro ts f h
  rcases cases_of_bind_eq_error h with hfails | ⟨⟨a, mid⟩, ha, hfails⟩
  · exact (fails_term hfactor hreads hfails).imp fun used rest _ hused ↦ hused.term
  · obtain ⟨used, rfl, hd, hfits⟩ := reads_term hreads ha
    exact (fails_terms hfactor hreads hfits (.term hd) hfails).append

theorem fails_enclosed {m : Token α} (hfactor : FailsWithin .factor factor)
    (hreads : Reads limit n .factor factor)
    (hbegins : ∀ {used : List (Token α)}, Begins .expr used → Begins .primary (m :: used))
    (close : Node α → Rule α)
    (hclose : ∀ {a mid}, close a mid = .error f → f.expected ≠ .lessNesting →
      f.remaining = mid.length)
    (h : (expr limit factor ts >>= fun r ↦ close r.1 r.2) = .error f) :
    FailsOn .primary [] (m :: ts) f := by
  change FailsOn .primary [] ([m] ++ ts) f
  refine FailsOn.append ?_
  rcases cases_of_bind_eq_error h with hfails | ⟨⟨a, mid⟩, ha, hfails⟩
  · exact (fails_expr hfactor hreads hfails).imp fun used rest _ hused ↦ hbegins hused
  · obtain ⟨used, rfl, hd, -⟩ := reads_expr hreads ha
    exact fun hdeep ↦ ⟨used, mid, rfl, hclose hfails hdeep, hbegins hd.begins⟩

private theorem remaining_of_endParens (h : endParens a ts = .error f) :
    f.remaining = ts.length := by
  match ts with
  | [] =>
    cases h
    rfl
  | t :: ts =>
    cases t with
    | closeParen => cases h
    | number | letter | plus | minus | star | slash | caret | openParen | bar =>
      cases h
      rfl

private theorem remaining_of_endBars (h : endBars limit a ts = .error f)
    (hdeep : f.expected ≠ .lessNesting) : f.remaining = ts.length := by
  match ts with
  | [] =>
    cases h
    rfl
  | t :: ts =>
    cases t with
    | bar => exact absurd (expected_of_limited h) hdeep
    | number | letter | plus | minus | star | slash | caret | openParen | closeParen =>
      cases h
      rfl

private theorem fails_primary (hfactor : FailsWithin .factor factor)
    (hreads : Reads limit n .factor factor) : FailsWithin .primary (primary limit factor) := by
  intro ts f h
  have hnone (h : Except.error (α := Node α × List (Token α)) ⟨ts.length, .primary⟩ = .error f) :
      FailsOn .primary [] ts f := by
    cases h
    exact failsOn_here (begins_nil .primary)
  match ts with
  | .openParen :: ts =>
    exact fails_enclosed hfactor hreads .parens endParens
      (fun hclose _ ↦ remaining_of_endParens hclose) h
  | .bar :: ts =>
    exact fails_enclosed hfactor hreads .bars (endBars limit) remaining_of_endBars h
  | [] => exact hnone h
  | .number _ :: _ | .letter _ :: _ => cases h
  | .plus :: _ | .minus :: _ | .star :: _ | .slash :: _ | .caret :: _ | .closeParen :: _ =>
    exact hnone h

private theorem fails_signed (hfactor : FailsWithin .factor factor)
    (hreads : Reads limit n .factor factor) : FailsWithin .signed (signed limit factor) := by
  have hprimary : FailsWithin .primary (primary limit factor) := fails_primary hfactor hreads
  intro ts f h
  by_cases hts : ts.head? = some .minus
  · obtain ⟨us, rfl⟩ := List.head?_eq_some_iff.mp hts
    change FailsOn .signed [] ([.minus] ++ us) f
    refine FailsOn.append ?_
    rcases cases_of_bind_eq_error h with hfails | ⟨r, -, hnode⟩
    · exact (hprimary hfails).imp fun used rest _ hused ↦ hused.negated
    · exact fun hdeep ↦ absurd (expected_of_limited hnode) hdeep
  · rw [signed_of_head? hts] at h
    exact (hprimary h).imp fun used rest _ hused ↦ hused.unsigned

/-- **A factor fails after the beginning of one.** By induction on the budget. -/
theorem fails_factor (hlimit : 0 < limit) (n : Nat) :
    FailsWithin .factor (Rule.factor limit n : Rule α) := by
  induction n with
  | zero =>
    intro ts f h
    cases h
    exact fun hdeep ↦ absurd rfl hdeep
  | succ n ih =>
    intro ts f h
    have hreads : Reads limit n .factor (Rule.factor limit n : Rule α) := reads_factor hlimit n
    rcases cases_of_bind_eq_error h with hfails | ⟨⟨a, mid⟩, ha, hfails⟩
    · exact (fails_signed ih hreads hfails).imp fun used rest _ hused ↦ hused.operand
    · obtain ⟨used, rfl, hd, -⟩ := reads_signed hlimit hreads ha
      refine FailsOn.append ?_
      by_cases hmid : mid.head? = some .caret
      · obtain ⟨us, rfl⟩ := List.head?_eq_some_iff.mp hmid
        change FailsOn .factor ([] ++ used) ([.caret] ++ us) f
        refine ((fails_andThen ih hfails).imp ?_).append
        intro used' rest _ hused'
        rw [List.nil_append, List.append_assoc]
        exact .power hd hused'
      · change exponent limit (Rule.factor limit n) a mid = .error f at hfails
        rw [exponent_of_head? hmid] at hfails
        cases hfails

end Rule

/-! ## Formulas -/

namespace Rule

variable {used rest : List (Token α)} {t : Token α}

/-- What begins with tokens without bars can be continued so that it is read to its end, with limits
that are great enough. -/
theorem exists_expr_eq_of_begins (limit n : Nat) (hbar : .bar ∉ used) (h : Begins .expr used) :
    ∃ limit' n' us, limit ≤ limit' ∧ n ≤ n' ∧ ∃ a : Node α,
      expr limit' (Rule.factor limit' n') (used ++ us) = .ok (a, []) := by
  obtain ⟨us, m, e, hd, hus⟩ := h.exists_unbarred hbar
  exact ⟨max limit e.height, max n m, us, Nat.le_max_left _ _, Nat.le_max_left _ _, .of e,
    (hd.mono (Nat.le_max_right n m)).expr_eq hus (Nat.le_max_right limit e.height)⟩

theorem bar_notMem_of_append_cons (h : .bar ∉ used ++ t :: rest) : .bar ∉ used ++ [t] := by
  rw [List.append_cons] at h
  exact fun hmem ↦ h (List.mem_append_left rest hmem)

private theorem not_begins_of_error {f : Failure} (hlimit : 0 < limit)
    (hbar : .bar ∉ used ++ t :: rest)
    (h : expr limit (Rule.factor limit n) (used ++ t :: rest) = .error f)
    (hremaining : f.remaining = (t :: rest).length) (hdeep : f.expected ≠ .lessNesting) :
    ¬Begins .expr (used ++ [t]) := by
  intro hbegins
  obtain ⟨limit', n', us, hle, hn, a, hread⟩ :=
    exists_expr_eq_of_begins limit n (bar_notMem_of_append_cons hbar) hbegins
  rw [List.append_assoc, List.singleton_append] at hread
  have hcarries := looksOneAhead_sum hlimit hle hn _ hbar
  rw [h] at hcarries
  cases hcarries with
  | atLimit => exact hdeep rfl
  | failure hts hfails =>
    obtain ⟨rfl, rfl⟩ := List.append_inj' hts hremaining.symm
    rw [hfails (t :: us) rfl] at hread
    cases hread

private theorem not_begins_of_ok {a : Node α} (hlimit : 0 < limit) (hbar : .bar ∉ used ++ t :: rest)
    (h : expr limit (Rule.factor limit n) (used ++ t :: rest) = .ok (a, t :: rest)) :
    ¬Begins .expr (used ++ [t]) := by
  intro hbegins
  obtain ⟨limit', n', us, hle, hn, a', hread⟩ :=
    exists_expr_eq_of_begins limit n (bar_notMem_of_append_cons hbar) hbegins
  rw [List.append_assoc, List.singleton_append] at hread
  have hcarries := looksOneAhead_sum hlimit hle hn _ hbar
  rw [h] at hcarries
  cases hcarries with
  | value hts hends =>
    rw [List.append_cancel_right hts, hends (t :: us) rfl] at hread
    cases hread

end Rule

namespace Expr

variable {ts : List (Token α)} {f : Failure}

/-- **Where reading fails**, other than at a limit: after the beginning of a formula, and, if there
are no bars, at a token with which the beginning ends. -/
theorem begins_of_ofTokens (h : ofTokens ts = .error f) (hdeep : f.expected ≠ .lessNesting) :
    ∃ used rest, ts = used ++ rest ∧ f.remaining = rest.length ∧ Begins .expr used ∧
      (.bar ∉ ts → ∀ t ∈ rest.head?, ¬Begins .expr (used ++ [t])) := by
  have hlimit : 0 < maxHeight := by decide
  have hreads : Rule.Reads maxHeight maxNesting .factor
      (Rule.factor maxHeight maxNesting : Rule α) := Rule.reads_factor hlimit maxNesting
  rcases cases_of_bind_eq_error h with hfails | ⟨⟨a, mid⟩, ha, hend⟩
  · obtain ⟨used, rest, rfl, hremaining, hused⟩ :=
      Rule.fails_expr (Rule.fails_factor hlimit maxNesting) hreads hfails hdeep
    refine ⟨used, rest, rfl, hremaining, hused, fun hbar t ht ↦ ?_⟩
    obtain ⟨rest, rfl⟩ := List.head?_eq_some_iff.mp ht
    exact Rule.not_begins_of_error hlimit hbar hfails hremaining hdeep
  · obtain ⟨used, rfl, hd, -⟩ := Rule.reads_expr hreads ha
    dsimp only at hend
    split at hend
    · cases hend
    cases hend
    refine ⟨used, mid, rfl, rfl, hd.begins, fun hbar t ht ↦ ?_⟩
    obtain ⟨rest, rfl⟩ := List.head?_eq_some_iff.mp ht
    exact Rule.not_begins_of_ok hlimit hbar ha

end Expr

/-! ## Positions -/

/-- A failure before the last of the lexemes stands at the first of these, or at the end of the
text. -/
theorem Failure.position_append {f : Failure} (before : List Lexeme) {after : List Lexeme}
    (h : f.remaining = after.length) (endOfText : Nat) :
    f.position (before ++ after) endOfText = (after.head?.map (·.position)).getD endOfText := by
  have hlength : (before ++ after).length - f.remaining = before.length := by
    rw [h, List.length_append, Nat.add_sub_cancel]
  rw [position, hlength, List.getElem?_append_right (Nat.le_refl _), Nat.sub_self]
  cases after <;> rfl

namespace Expr

/-- **Syntax errors stand at the first token that is wrong.** If a text without bars has lexemes,
and is not read, other than for its nesting, then the position of the error is that of a lexeme, or
the end of the text; the tokens before the position are the beginning of a formula; and no formula
begins with these tokens and the one at the position. -/
theorem syntax_error_at_first_bad_token (text : String) (hbar : '|' ∉ text.toList)
    (lexemes : List Lexeme) (hlexemes : Lexeme.list text = .ok lexemes) (error : SyntaxError)
    (h : parse text = .error error) (hdeep : error.expected ≠ .lessNesting) :
    let before := (lexemes.filter (·.position < error.position)).map (·.token)
    ((∃ l ∈ lexemes, l.position = error.position) ∨ error.position = text.utf8ByteSize) ∧
    (∃ rest n e, Derives .expr n (before ++ rest) e) ∧
    ∀ l ∈ lexemes, l.position = error.position →
      ¬∃ rest n e, Derives .expr n (before ++ l.token :: rest) e := by
  have hmade := Lexeme.madeOf_of_list hlexemes
  rw [parse_of_list hlexemes] at h
  cases hread : ofTokens (lexemes.map (·.token)) with
  | ok e =>
    rw [hread] at h
    cases h
  | error f =>
    rw [hread] at h
    cases h
    obtain ⟨used, rest, hsplit, hremaining, hbegins, hends⟩ := begins_of_ofTokens hread hdeep
    obtain ⟨before, after, rfl, rfl, rfl⟩ := List.map_eq_append_iff.mp hsplit
    rw [List.length_map] at hremaining
    have hposition := Failure.position_append before hremaining text.utf8ByteSize
    dsimp only
    cases after with
    | nil =>
      have hend : f.position (before ++ []) text.utf8ByteSize = text.utf8ByteSize := hposition
      have hall := hmade.filter_end
      rw [Nat.zero_add, ← Lexeme.utf8ByteSize_eq] at hall
      rw [hend, hall, List.append_nil]
      refine ⟨.inr rfl, hbegins, fun l hl heq ↦ ?_⟩
      have hbounds := hmade.bounds l (by rwa [List.append_nil])
      rw [Lexeme.utf8ByteSize_eq] at heq
      omega
    | cons l after =>
      have hat : f.position (before ++ l :: after) text.utf8ByteSize = l.position := hposition
      rw [hat, hmade.filter_eq]
      refine ⟨.inl ⟨l, List.mem_append_right _ List.mem_cons_self, rfl⟩, hbegins, ?_⟩
      rintro m hm hml ⟨rest, n, e, hd⟩
      cases hmade.eq_of_position_eq hm hml
      refine hends (hmade.bar_notMem hbar) l.token rfl ⟨rest, n, e, ?_⟩
      rwa [List.append_assoc, List.singleton_append]

/-- No formula has a slash right after a star. -/
theorem slash_after_star :
    parse "y* /x" = .error ⟨3, .primary⟩ ∧
    (∃ rest n e, Derives .expr n ([.letter .y, .star] ++ rest) (e : Expr Float)) ∧
    ¬∃ rest n e, Derives .expr n ([.letter .y, .star] ++ .slash :: rest) (e : Expr Float) := by
  have hread : parse "y* /x" = .error ⟨3, .primary⟩ := rfl
  obtain ⟨-, hbegins, hends⟩ := syntax_error_at_first_bad_token "y* /x" (by decide)
    [⟨0, 1, .letter .y⟩, ⟨1, 1, .star⟩, ⟨3, 1, .slash⟩, ⟨4, 1, .letter .x⟩] rfl ⟨3, .primary⟩ hread
    nofun
  exact ⟨hread, hbegins, hends ⟨3, 1, .slash⟩ (.tail _ (.tail _ (.head _))) rfl⟩

end Expr

end ImplicitPlot
