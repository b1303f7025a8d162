import ImplicitPlot.Proofs.Formula.ParserCompleteness

/-!
# One token of lookahead

Without bars, a rule never looks beyond the first token that it leaves: tokens that agree with the
ones at hand up to and including that one have the same outcome, a failure at the corresponding
place (`CarriesOver`). Neither do the limits matter, unless reading stops at one of them: with
greater limits the outcome is the same.

The bound on the rounds of a loop is the number of tokens, which lie beyond that first one. So the
loops are first shown to do the same with any bound that is large enough.
-/

namespace ImplicitPlot

open Grammar

variable {α β γ : Type} {limit limit' n : Nat}

namespace Rule

/-- Of what it reads, the rule takes one token at least. -/
def TakesTokens (rule : Rule α) : Prop :=
  ∀ {ts rest : List (Token α)} {a : Node α}, rule ts = .ok (a, rest) → rest.length < ts.length

theorem Reads.takesTokens {s : Symbol} {rule : Rule α} (h : Reads limit n s rule) :
    TakesTokens rule := by
  intro ts rest a hr
  obtain ⟨used, rfl, hd, -⟩ := h hr
  obtain ⟨t, us, rfl, -⟩ := hd.exists_head
  rw [List.cons_append, List.length_cons, List.length_append]
  omega

variable {rule factor : Rule α} {ts rest : List (Token α)} {op : BinaryOp}

theorem takesTokens_andThen (h : TakesTokens rule) (a : Node α) :
    TakesTokens (andThen limit rule op a) := by
  intro ts rest b hb
  obtain ⟨⟨c, mid⟩, hc, hnode⟩ := exists_of_bind_eq_ok hb
  obtain ⟨-, rfl, -⟩ := Node.eq_of_limited hnode
  exact h hc

theorem takesTokens_term (h : Reads limit n .factor factor) :
    TakesTokens (term limit factor) := Reads.takesTokens (reads_term h)

/-! ## Loops with rounds for all tokens -/

private theorem factors_eq_of_le (h : TakesTokens factor) {fuel fuel' : Nat} (a : Node α)
    (hfuel : ts.length ≤ fuel) (hfuel' : ts.length ≤ fuel') :
    factors limit factor fuel a ts = factors limit factor fuel' a ts := by
  have hnil : ∀ t ∈ ([] : List (Token α)).head?, continuesTerm t = false := nofun
  induction fuel generalizing fuel' a ts with
  | zero =>
    cases List.eq_nil_of_length_eq_zero (Nat.le_zero.mp hfuel)
    rw [factors_stop _ a hnil, factors_stop _ a hnil]
  | succ fuel ih =>
    cases fuel' with
    | zero =>
      cases List.eq_nil_of_length_eq_zero (Nat.le_zero.mp hfuel')
      rw [factors_stop _ a hnil, factors_stop _ a hnil]
    | succ fuel' =>
      have hround {op : BinaryOp} {us : List (Token α)} (hus : us.length ≤ fuel + 1)
          (hus' : us.length ≤ fuel' + 1) :
          (andThen limit factor op a us >>= fun r ↦ factors limit factor fuel r.1 r.2)
            = (andThen limit factor op a us >>= fun r ↦ factors limit factor fuel' r.1 r.2) := by
        refine bind_congr_of_ok fun r hr ↦ ?_
        have hlt := takesTokens_andThen h a hr
        exact ih r.1 (by omega) (by omega)
      match ts with
      | [] => rfl
      | .star :: ts | .slash :: ts =>
        exact hround (Nat.le_of_succ_le hfuel) (Nat.le_of_succ_le hfuel')
      | .bar :: ts =>
        rw [factors_bar, factors_bar, hround hfuel hfuel']
      | .number _ :: _ | .letter _ :: _ | .openParen :: _ => exact hround hfuel hfuel'
      | .plus :: _ | .minus :: _ | .caret :: _ | .closeParen :: _ => rfl

private theorem terms_eq_of_le (h : Reads limit n .factor factor) {fuel fuel' : Nat} (a : Node α)
    (hfuel : ts.length ≤ fuel) (hfuel' : ts.length ≤ fuel') :
    terms limit factor fuel a ts = terms limit factor fuel' a ts := by
  have hstop {fuel : Nat} {a : Node α} : terms limit factor fuel a [] = .ok (a, []) :=
    terms_stop fuel a nofun nofun
  induction fuel generalizing fuel' a ts with
  | zero =>
    cases List.eq_nil_of_length_eq_zero (Nat.le_zero.mp hfuel)
    exact hstop.trans hstop.symm
  | succ fuel ih =>
    cases fuel' with
    | zero =>
      cases List.eq_nil_of_length_eq_zero (Nat.le_zero.mp hfuel')
      exact hstop.trans hstop.symm
    | succ fuel' =>
      have hround {op : BinaryOp} {us : List (Token α)} (hus : us.length ≤ fuel)
          (hus' : us.length ≤ fuel') :
          (andThen limit (term limit factor) op a us >>= fun r ↦ terms limit factor fuel r.1 r.2)
            = (andThen limit (term limit factor) op a us >>= fun r ↦
                terms limit factor fuel' r.1 r.2) := by
        refine bind_congr_of_ok fun r hr ↦ ?_
        have hlt := takesTokens_andThen (takesTokens_term h) a hr
        exact ih r.1 (by omega) (by omega)
      match ts with
      | [] => rfl
      | .plus :: ts | .minus :: ts =>
        exact hround (Nat.le_of_succ_le_succ hfuel) (Nat.le_of_succ_le_succ hfuel')
      | .number _ :: _ | .letter _ :: _ | .star :: _ | .slash :: _ | .caret :: _
      | .openParen :: _ | .closeParen :: _ | .bar :: _ => rfl

/-- The loop over factors, with rounds for all tokens. -/
def allFactors (limit : Nat) (factor : Rule α) (a : Node α) : Rule α := fun ts ↦
  factors limit factor ts.length a ts

/-- The loop over terms, with rounds for all tokens. -/
def allTerms (limit : Nat) (factor : Rule α) (a : Node α) : Rule α := fun ts ↦
  terms limit factor ts.length a ts

theorem allFactors_round (h : TakesTokens factor) {a : Node α} {t : Token α}
    {us : List (Token α)} (hus : us.length ≤ ts.length + 1)
    (hround : factors limit factor (ts.length + 1) a (t :: ts)
      = (andThen limit factor op a us >>= fun r ↦ factors limit factor ts.length r.1 r.2)) :
    allFactors limit factor a (t :: ts)
      = (andThen limit factor op a us >>= fun r ↦ allFactors limit factor r.1 r.2) := by
  rw [allFactors, List.length_cons, hround]
  refine bind_congr_of_ok fun r hr ↦ ?_
  have hlt := takesTokens_andThen h a hr
  exact factors_eq_of_le h r.1 (by omega) (Nat.le_refl _)

theorem allTerms_round (h : Reads limit n .factor factor) {a : Node α} {t : Token α}
    (hround : terms limit factor (ts.length + 1) a (t :: ts)
      = (andThen limit (term limit factor) op a ts >>= fun r ↦
          terms limit factor ts.length r.1 r.2)) :
    allTerms limit factor a (t :: ts)
      = (andThen limit (term limit factor) op a ts >>= fun r ↦ allTerms limit factor r.1 r.2) := by
  rw [allTerms, List.length_cons, hround]
  refine bind_congr_of_ok fun r hr ↦ ?_
  have hlt := takesTokens_andThen (takesTokens_term h) a hr
  exact terms_eq_of_le h r.1 (by omega) (Nat.le_refl _)

end Rule

/-! ## Outcomes that carry over -/

/-- The outcome of reading the tokens is that of the given rule on all tokens that agree with them
up to and including the first one left, at the corresponding place; or a limit has been met. -/
inductive CarriesOver (rule : List (Token α) → Except Failure (β × List (Token α)))
    (ts : List (Token α)) : Except Failure (β × List (Token α)) → Prop
  | value {used rest : List (Token α)} {b : β} (hts : ts = used ++ rest)
      (h : ∀ us : List (Token α), us.head? = rest.head? → rule (used ++ us) = .ok (b, us)) :
      CarriesOver rule ts (.ok (b, rest))
  | failure {used rest : List (Token α)} {expected : Expectation} (hts : ts = used ++ rest)
      (h : ∀ us : List (Token α), us.head? = rest.head? →
        rule (used ++ us) = .error ⟨us.length, expected⟩) :
      CarriesOver rule ts (.error ⟨rest.length, expected⟩)
  | atLimit (left : Nat) : CarriesOver rule ts (.error ⟨left, .lessNesting⟩)

namespace CarriesOver

variable {rule rule' : List (Token α) → Except Failure (β × List (Token α))}
  {ts rest : List (Token α)} {x : Except Failure (β × List (Token α))}

theorem pure (b : β) (ts : List (Token α)) :
    CarriesOver (fun us ↦ .ok (b, us)) ts (.ok (b, ts)) :=
  .value (List.nil_append ts).symm fun _ _ ↦ rfl

/-- Reading stops before the first token. -/
theorem error (expected : Expectation) (ts : List (Token α)) :
    CarriesOver (fun us ↦ (.error ⟨us.length, expected⟩ : Except Failure (β × _))) ts
      (.error ⟨ts.length, expected⟩) :=
  .failure (List.nil_append ts).symm fun _ _ ↦ rfl

/-- Another rule may take the place of the first if it does the same with all tokens that start
alike. -/
theorem congr (h : CarriesOver rule ts x)
    (heq : ∀ us : List (Token α), us.head? = ts.head? → rule' us = rule us) :
    CarriesOver rule' ts x := by
  have hhead {used rest us : List (Token α)} (hts : ts = used ++ rest)
      (hus : us.head? = rest.head?) : (used ++ us).head? = ts.head? := by
    rw [hts, List.head?_append, List.head?_append, hus]
  cases h with
  | value hts h => exact .value hts fun us hus ↦ by rw [heq _ (hhead hts hus), h us hus]
  | failure hts h => exact .failure hts fun us hus ↦ by rw [heq _ (hhead hts hus), h us hus]
  | atLimit left => exact .atLimit left

theorem cons {t : Token α} (h : CarriesOver rule ts x)
    (heq : ∀ us : List (Token α), rule' (t :: us) = rule us) : CarriesOver rule' (t :: ts) x := by
  have hcons {used rest : List (Token α)} (hts : ts = used ++ rest) :
      t :: ts = (t :: used) ++ rest := congrArg (List.cons t) hts
  cases h with
  | value hts h =>
    refine .value (hcons hts) fun us hus ↦ ?_
    rw [List.cons_append, heq, h us hus]
  | failure hts h =>
    refine .failure (hcons hts) fun us hus ↦ ?_
    rw [List.cons_append, heq, h us hus]
  | atLimit left => exact .atLimit left

/-- One rule goes on from where the other has stopped. -/
theorem bind {k j : β → List (Token α) → Except Failure (γ × List (Token α))}
    (h : CarriesOver rule ts x)
    (hk : ∀ b rest, x = .ok (b, rest) → (∃ used, ts = used ++ rest) →
      CarriesOver (j b) rest (k b rest)) :
    CarriesOver (fun us ↦ rule us >>= fun r ↦ j r.1 r.2) ts (x >>= fun r ↦ k r.1 r.2) := by
  cases h with
  | @value used rest b hts h =>
    have hrest := hk b rest rfl ⟨used, hts⟩
    -- Where the second rule has read nothing, the token that it looks at is also the one at which
    -- the first rule has stopped; otherwise that one has been read.
    have hfirst {used' rest' us : List (Token α)} (hts' : rest = used' ++ rest')
        (hus : us.head? = rest'.head?) :
        rule (used ++ used' ++ us) = .ok (b, used' ++ us) := by
      rw [List.append_assoc]
      apply h
      rw [hts', List.head?_append, List.head?_append, hus]
    have happend {used' rest' : List (Token α)} (hts' : rest = used' ++ rest') :
        ts = used ++ used' ++ rest' := by rw [hts, hts', List.append_assoc]
    change CarriesOver _ ts (k b rest)
    generalize k b rest = y at hrest
    cases hrest with
    | value hts' h' =>
      refine .value (happend hts') fun us hus ↦ ?_
      rw [hfirst hts' hus]
      exact h' us hus
    | failure hts' h' =>
      refine .failure (happend hts') fun us hus ↦ ?_
      rw [hfirst hts' hus]
      exact h' us hus
    | atLimit left => exact .atLimit left
  | @failure used rest expected hts h =>
    exact .failure hts fun us hus ↦ by rw [h us hus]; rfl
  | atLimit left => exact .atLimit left

end CarriesOver

/-! ## Rules -/

theorem Node.carriesOver_limited (hle : limit ≤ limit') (e : Expr α) (height : Nat)
    (ts : List (Token α)) :
    CarriesOver (limited limit' e height) ts (limited limit e height ts) := by
  rw [limited]
  split
  · exact .atLimit _
  next h =>
    refine (CarriesOver.pure _ ts).congr fun us _ ↦ ?_
    exact if_neg (Nat.not_lt_of_le (Nat.le_trans (Nat.le_of_not_lt h) hle))

namespace Rule

/-- Without bars, the outcomes of the first rule carry over to the second. -/
def LooksOneAhead (rule rule' : Rule α) : Prop :=
  ∀ ts, .bar ∉ ts → CarriesOver rule' ts (rule ts)

variable {rule rule' factor factor' : Rule α} {op : BinaryOp}

theorem looksOneAhead_andThen (hle : limit ≤ limit') (h : LooksOneAhead rule rule') (a : Node α) :
    LooksOneAhead (andThen limit rule op a) (andThen limit' rule' op a) := by
  intro ts hbar
  exact (h ts hbar).bind fun b rest _ _ ↦ Node.carriesOver_limited hle _ _ rest

theorem notMem_of_append {t : Token α} {ts used rest : List (Token α)} (h : t ∉ ts)
    (hts : ts = used ++ rest) : t ∉ rest := by
  rintro hmem
  exact h (hts ▸ List.mem_append_right used hmem)

/-- **The loop over factors looks one token ahead.** By induction on the number of tokens: a round
leaves fewer of them. -/
theorem looksOneAhead_allFactors (hle : limit ≤ limit') (h : LooksOneAhead factor factor')
    (htakes : TakesTokens factor) (htakes' : TakesTokens factor') (a : Node α) :
    LooksOneAhead (allFactors limit factor a) (allFactors limit' factor' a) := by
  intro ts hbar
  induction hlength : ts.length using Nat.strongRecOn generalizing ts a with
  | _ length ih =>
    have hround {op : BinaryOp} {us : List (Token α)} (hus : us.length ≤ length)
        (hbar : .bar ∉ us) :
        CarriesOver (fun us ↦ andThen limit' factor' op a us >>= fun r ↦
            allFactors limit' factor' r.1 r.2) us
          (andThen limit factor op a us >>= fun r ↦ allFactors limit factor r.1 r.2) := by
      refine (looksOneAhead_andThen hle h a us hbar).bind fun b rest hr ⟨used, hrest⟩ ↦ ?_
      have hlt := takesTokens_andThen htakes a hr
      exact ih rest.length (by omega) b rest (notMem_of_append hbar hrest) rfl
    have hstop (hts : ∀ t ∈ ts.head?, continuesTerm t = false) :
        CarriesOver (allFactors limit' factor' a) ts (allFactors limit factor a ts) := by
      rw [allFactors, factors_stop _ a hts]
      refine (CarriesOver.pure a ts).congr fun us hus ↦ ?_
      exact factors_stop _ a (hus ▸ hts)
    match ts with
    | [] => exact hstop nofun
    | t :: ts =>
      have hbar' : .bar ∉ ts := fun hmem ↦ hbar (List.mem_cons_of_mem _ hmem)
      have hsucc : ts.length ≤ length := by
        rw [← hlength]
        exact Nat.le_succ _
      have hadjacent (ht : t.startsPrimary = true) :
          CarriesOver (allFactors limit' factor' a) (t :: ts)
            (allFactors limit factor a (t :: ts)) := by
        have htbar : t ≠ .bar := by
          rintro rfl
          exact hbar List.mem_cons_self
        rw [allFactors_round htakes (Nat.le_refl _) (factors_adjacent _ a ts ht htbar)]
        refine (hround (Nat.le_of_eq hlength) hbar).congr fun us hus ↦ ?_
        obtain ⟨vs, rfl⟩ := List.head?_eq_some_iff.mp hus
        exact allFactors_round htakes' (Nat.le_refl _) (factors_adjacent _ a vs ht htbar)
      cases t with
      | star =>
        rw [allFactors_round htakes (Nat.le_succ _) (factors_star _ a ts)]
        refine (hround hsucc hbar').cons fun us ↦ ?_
        exact allFactors_round htakes' (Nat.le_succ _) (factors_star _ a us)
      | slash =>
        rw [allFactors_round htakes (Nat.le_succ _) (factors_slash _ a ts)]
        refine (hround hsucc hbar').cons fun us ↦ ?_
        exact allFactors_round htakes' (Nat.le_succ _) (factors_slash _ a us)
      | bar => exact absurd List.mem_cons_self hbar
      | number | letter | openParen => exact hadjacent rfl
      | plus | minus | caret | closeParen => exact hstop (by rintro t ⟨⟩; rfl)

theorem looksOneAhead_term (hle : limit ≤ limit') (h : LooksOneAhead factor factor')
    (htakes : TakesTokens factor) (htakes' : TakesTokens factor') :
    LooksOneAhead (term limit factor) (term limit' factor') := by
  intro ts hbar
  refine (h ts hbar).bind (k := allFactors limit factor) (j := allFactors limit' factor')
    fun a rest _ ⟨used, hrest⟩ ↦ ?_
  exact looksOneAhead_allFactors hle h htakes htakes' a rest (notMem_of_append hbar hrest)

/-- **The loop over terms looks one token ahead.** -/
theorem looksOneAhead_allTerms {n' : Nat} (hle : limit ≤ limit') (h : LooksOneAhead factor factor')
    (hreads : Reads limit n .factor factor) (hreads' : Reads limit' n' .factor factor')
    (a : Node α) : LooksOneAhead (allTerms limit factor a) (allTerms limit' factor' a) := by
  intro ts hbar
  induction hlength : ts.length using Nat.strongRecOn generalizing ts a with
  | _ length ih =>
    have hterm : LooksOneAhead (term limit factor) (term limit' factor') :=
      looksOneAhead_term hle h (Reads.takesTokens hreads) (Reads.takesTokens hreads')
    have hround {op : BinaryOp} {us : List (Token α)} (hus : us.length ≤ length)
        (hbar : .bar ∉ us) :
        CarriesOver (fun us ↦ andThen limit' (term limit' factor') op a us >>= fun r ↦
            allTerms limit' factor' r.1 r.2) us
          (andThen limit (term limit factor) op a us >>= fun r ↦
            allTerms limit factor r.1 r.2) := by
      refine (looksOneAhead_andThen hle hterm a us hbar).bind fun b rest hr ⟨used, hrest⟩ ↦ ?_
      have hlt := takesTokens_andThen (takesTokens_term hreads) a hr
      exact ih rest.length (by omega) b rest (notMem_of_append hbar hrest) rfl
    have hstop (hplus : ts.head? ≠ some .plus) (hminus : ts.head? ≠ some .minus) :
        CarriesOver (allTerms limit' factor' a) ts (allTerms limit factor a ts) := by
      rw [allTerms, terms_stop _ a hplus hminus]
      refine (CarriesOver.pure a ts).congr fun us hus ↦ ?_
      exact terms_stop _ a (hus ▸ hplus) (hus ▸ hminus)
    match ts with
    | [] => exact hstop nofun nofun
    | t :: ts =>
      have hbar' : .bar ∉ ts := fun hmem ↦ hbar (List.mem_cons_of_mem _ hmem)
      have hsucc : ts.length ≤ length := by
        rw [← hlength]
        exact Nat.le_succ _
      cases t with
      | plus =>
        rw [allTerms_round hreads (terms_plus _ a ts)]
        exact (hround hsucc hbar').cons fun us ↦ allTerms_round hreads' (terms_plus _ a us)
      | minus =>
        rw [allTerms_round hreads (terms_minus _ a ts)]
        exact (hround hsucc hbar').cons fun us ↦ allTerms_round hreads' (terms_minus _ a us)
      | number | letter | star | slash | caret | openParen | closeParen | bar =>
        exact hstop nofun nofun

theorem looksOneAhead_expr {n' : Nat} (hle : limit ≤ limit') (h : LooksOneAhead factor factor')
    (hreads : Reads limit n .factor factor) (hreads' : Reads limit' n' .factor factor') :
    LooksOneAhead (expr limit factor) (expr limit' factor') := by
  have hterm : LooksOneAhead (term limit factor) (term limit' factor') :=
    looksOneAhead_term hle h (Reads.takesTokens hreads) (Reads.takesTokens hreads')
  intro ts hbar
  refine (hterm ts hbar).bind (k := allTerms limit factor) (j := allTerms limit' factor')
    fun a rest _ ⟨used, hrest⟩ ↦ ?_
  exact looksOneAhead_allTerms hle h hreads hreads' a rest (notMem_of_append hbar hrest)

theorem carriesOver_of_head? {rule rule' : Rule α} {ts : List (Token α)}
    {x : List (Token α) → Except Failure (Node α × List (Token α))}
    (hx : CarriesOver x ts (x ts)) (h : ∀ us : List (Token α), us.head? = ts.head? →
      rule us = x us ∧ rule' us = x us) : CarriesOver rule' ts (rule ts) := by
  rw [(h ts rfl).1]
  exact hx.congr fun us hus ↦ (h us hus).2

/-- The end of a sum in parentheses. -/
def endParens (a : Node α) : Rule α := fun ts ↦
  match ts with
  | .closeParen :: ts => .ok (a, ts)
  | _ => .error ⟨ts.length, .closeParen⟩

/-- The end of a sum between bars. -/
def endBars (limit : Nat) (a : Node α) : Rule α := fun ts ↦
  match ts with
  | .bar :: ts => Node.unary limit .abs a ts
  | _ => .error ⟨ts.length, .closeBar⟩

private theorem carriesOver_endParens (a : Node α) (ts : List (Token α)) :
    CarriesOver (endParens a) ts (endParens a ts) := by
  have hother (hts : ts.head? ≠ some .closeParen) :
      CarriesOver (endParens a) ts (endParens a ts) := by
    refine carriesOver_of_head? (CarriesOver.error .closeParen ts) fun us hus ↦ and_self_iff.mpr ?_
    match us with
    | [] => rfl
    | t :: us =>
      cases t with
      | closeParen => exact absurd hus.symm hts
      | number | letter | plus | minus | star | slash | caret | openParen | bar => rfl
  match ts with
  | [] => exact hother nofun
  | t :: ts =>
    cases t with
    | closeParen => exact (CarriesOver.pure a ts).cons fun us ↦ rfl
    | number | letter | plus | minus | star | slash | caret | openParen | bar =>
      exact hother nofun

theorem primary_of_head? {ts : List (Token α)} (hts : ∀ t ∈ ts.head?, t.startsPrimary = false) :
    primary limit factor ts = .error ⟨ts.length, .primary⟩ := by
  match ts with
  | [] => rfl
  | t :: ts =>
    have ht := hts t rfl
    cases t with
    | number | letter | openParen | bar => cases ht
    | plus | minus | star | slash | caret | closeParen => rfl

private theorem looksOneAhead_primary {n' : Nat} (hle : limit ≤ limit')
    (h : LooksOneAhead factor factor')
    (hreads : Reads limit n .factor factor) (hreads' : Reads limit' n' .factor factor') :
    LooksOneAhead (primary limit factor) (primary limit' factor') := by
  intro ts hbar
  have hnone (hts : ∀ t ∈ ts.head?, t.startsPrimary = false) :
      CarriesOver (primary limit' factor') ts (primary limit factor ts) :=
    carriesOver_of_head? (CarriesOver.error .primary ts) fun us hus ↦
      ⟨primary_of_head? (hus ▸ hts), primary_of_head? (hus ▸ hts)⟩
  match ts with
  | [] => exact hnone nofun
  | t :: ts =>
    have hbar' : .bar ∉ ts := fun hmem ↦ hbar (List.mem_cons_of_mem _ hmem)
    cases t with
    | number c => exact (CarriesOver.pure _ ts).cons fun us ↦ rfl
    | letter v => exact (CarriesOver.pure _ ts).cons fun us ↦ rfl
    | openParen =>
      have hsum := looksOneAhead_expr hle h hreads hreads' ts hbar'
      refine (hsum.bind (k := endParens) (j := endParens) fun a rest _ _ ↦ ?_).cons fun us ↦ rfl
      exact carriesOver_endParens a rest
    | bar => exact absurd List.mem_cons_self hbar
    | plus | minus | star | slash | caret | closeParen => exact hnone (by rintro t ⟨⟩; rfl)

private theorem looksOneAhead_signed {n' : Nat} (hle : limit ≤ limit')
    (h : LooksOneAhead factor factor')
    (hreads : Reads limit n .factor factor) (hreads' : Reads limit' n' .factor factor') :
    LooksOneAhead (signed limit factor) (signed limit' factor') := by
  have hprimary : LooksOneAhead (primary limit factor) (primary limit' factor') :=
    looksOneAhead_primary hle h hreads hreads'
  intro ts hbar
  by_cases hts : ts.head? = some .minus
  · obtain ⟨us, rfl⟩ := List.head?_eq_some_iff.mp hts
    have hoperand := hprimary us fun hmem ↦ hbar (List.mem_cons_of_mem _ hmem)
    refine (hoperand.bind fun a rest _ _ ↦ ?_).cons fun us ↦ rfl
    exact Node.carriesOver_limited hle _ _ rest
  · rw [signed_of_head? hts]
    exact (hprimary ts hbar).congr fun us hus ↦ signed_of_head? (hus ▸ hts)

/-- What may follow an operand. -/
def exponent (limit : Nat) (factor : Rule α) (a : Node α) : Rule α := fun ts ↦
  match ts with
  | .caret :: ts => andThen limit factor .pow a ts
  | _ => .ok (a, ts)

theorem exponent_of_head? {ts : List (Token α)} (hts : ts.head? ≠ some .caret) (a : Node α) :
    exponent limit factor a ts = .ok (a, ts) := by
  match ts with
  | [] => rfl
  | t :: ts =>
    cases t with
    | caret => exact absurd rfl hts
    | number | letter | plus | minus | star | slash | openParen | closeParen | bar => rfl

private theorem looksOneAhead_exponent (hle : limit ≤ limit') (h : LooksOneAhead factor factor')
    (a : Node α) : LooksOneAhead (exponent limit factor a) (exponent limit' factor' a) := by
  intro ts hbar
  by_cases hts : ts.head? = some .caret
  · obtain ⟨us, rfl⟩ := List.head?_eq_some_iff.mp hts
    have hbar' : .bar ∉ us := fun hmem ↦ hbar (List.mem_cons_of_mem _ hmem)
    exact (looksOneAhead_andThen hle h a us hbar').cons fun us ↦ rfl
  · exact carriesOver_of_head? (CarriesOver.pure a ts) fun us hus ↦
      ⟨exponent_of_head? (hus ▸ hts) a, exponent_of_head? (hus ▸ hts) a⟩

/-- **Factors look one token ahead**, whatever the limits, as long as these are not met. By
induction on the lesser budget. -/
theorem looksOneAhead_factor {n' : Nat} (hlimit : 0 < limit) (hle : limit ≤ limit')
    (hn : n ≤ n') :
    LooksOneAhead (Rule.factor limit n : Rule α) (Rule.factor limit' n') := by
  induction n generalizing n' with
  | zero => exact fun ts _ ↦ .atLimit _
  | succ n ih =>
    obtain ⟨m, rfl⟩ := Nat.exists_eq_add_of_lt hn
    have hlimit' : 0 < limit' := Nat.lt_of_lt_of_le hlimit hle
    have hfactor : LooksOneAhead (Rule.factor limit n : Rule α) (Rule.factor limit' (n + m)) :=
      ih (Nat.le_add_right n m)
    intro ts hbar
    refine (looksOneAhead_signed hle hfactor (reads_factor hlimit n)
      (reads_factor hlimit' (n + m)) ts hbar).bind (k := exponent limit (Rule.factor limit n))
        (j := exponent limit' (Rule.factor limit' (n + m))) fun a rest _ ⟨used, hrest⟩ ↦ ?_
    exact looksOneAhead_exponent hle hfactor a rest (notMem_of_append hbar hrest)

theorem looksOneAhead_sum {n' : Nat} (hlimit : 0 < limit) (hle : limit ≤ limit') (hn : n ≤ n') :
    LooksOneAhead (expr limit (Rule.factor limit n) : Rule α)
      (expr limit' (Rule.factor limit' n')) :=
  looksOneAhead_expr hle (looksOneAhead_factor hlimit hle hn) (reads_factor hlimit n)
    (reads_factor (Nat.lt_of_lt_of_le hlimit hle) n')

end Rule

end ImplicitPlot
