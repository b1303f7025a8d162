import ImplicitPlot.Proofs.Formula.WrittenTokens

/-!
# Written formulas are read back

The tokens of a written formula are read as that formula, or reading stops at the nesting limit;
there is no third outcome. Parentheses tell at once how to go on, but a bar does not. A bar that
closes a magnitude is always tried as one that opens another factor, and only if no factor can be
read there it closes. So it has to be known that no bar that closes can also open.

What stands after a bar that closes is the end of the text, a closing parenthesis, another bar that
closes, or an operation with its second operand and a closing parenthesis. Off none of them a sum
can be read that a bar follows (`Closed`): only a minus can start a sum at all, and the negated
operand after it ends at a parenthesis.
-/

namespace ImplicitPlot

open Grammar

variable {α β γ : Type} {limit n : Nat}

/-! ## Results up to the nesting limit -/

/-- A value is returned, and a property holds, or reading stops at the nesting limit. -/
inductive Returns (b : β) (P : Prop) : Except Failure β → Prop
  | value (h : P) : Returns b P (.ok b)
  | tooDeep (left : Nat) : Returns b P (.error ⟨left, .lessNesting⟩)

namespace Returns

variable {P Q : Prop}

theorem bind {b : β} {c : γ} {x : Except Failure β} {k : β → Except Failure γ}
    (hx : Returns b P x) (hk : P → Returns c Q (k b)) : Returns c Q (x >>= k) := by
  cases hx with
  | value h => exact hk h
  | tooDeep left => exact .tooDeep left

variable {ts rest : List (Token α)} {a b : Expr α}

theorem limited (h : P) (e : Expr α) (height : Nat) :
    Returns (⟨e, height⟩, ts) P (Node.limited limit e height ts) := by
  rw [Node.limited]
  split
  · exact .tooDeep _
  · exact .value h

theorem imp {b : β} {x : Except Failure β} (hx : Returns b P x) (h : P → Q) : Returns b Q x := by
  cases hx with
  | value hP => exact .value (h hP)
  | tooDeep left => exact .tooDeep left

theorem andThen {rule : Rule α} {op : BinaryOp} (hb : Returns (.of b, rest) P (rule ts)) :
    Returns (.of (.binary op a b), rest) P (Rule.andThen limit rule op (.of a) ts) :=
  hb.bind fun h ↦ limited h _ _

/-- An operand without an exponent is a factor. -/
theorem factor {e : Expr α}
    (h : Returns (.of e, rest) P (Rule.signed limit (Rule.factor limit n) ts))
    (hcaret : rest.head? ≠ some .caret) :
    Returns (.of e, rest) P (Rule.factor limit (n + 1) ts) := by
  rw [Rule.factor]
  generalize hx : Rule.signed limit (Rule.factor limit n) ts = x at h
  cases h with
  | value h =>
    rw [Rule.power_of_head? hx hcaret]
    exact .value h
  | tooDeep left =>
    rw [Rule.power, hx]
    exact .tooDeep left

/-- A factor before a token that joins no factor is a term. -/
theorem term {a : Node α} {rule : Rule α} (h : Returns (a, rest) P (rule ts))
    (hstop : ∀ t ∈ rest.head?, Rule.continuesTerm t = false) :
    Returns (a, rest) P (Rule.term limit rule ts) := by
  refine h.bind fun hP ↦ ?_
  dsimp only
  rw [Rule.factors_stop _ a hstop]
  exact .value hP

theorem joined {op : BinaryOp} {m : Token α} {rule : Rule α} {us : List (Token α)}
    (ha : Returns (.of a, m :: us) P (rule ts)) (hb : P → Returns (.of b, rest) Q (rule us))
    (hstop : ∀ t ∈ rest.head?, Rule.continuesTerm t = false)
    (hround : ∀ fuel, Rule.factors limit rule (fuel + 1) (.of a) (m :: us)
      = (Rule.andThen limit rule op (.of a) us >>= fun r ↦
          Rule.factors limit rule fuel r.1 r.2)) :
    Returns (.of (.binary op a b), rest) Q (Rule.term limit rule ts) := by
  refine ha.bind fun hP ↦ ?_
  dsimp only
  rw [List.length_cons, hround]
  refine (hb hP).andThen.bind fun hQ ↦ ?_
  rw [Rule.factors_stop _ _ hstop]
  exact .value hQ

theorem added {op : BinaryOp} {m : Token α} {rule : Rule α} {us : List (Token α)}
    (ha : Returns (.of a, m :: us) P (Rule.term limit rule ts))
    (hb : P → Returns (.of b, rest) Q (Rule.term limit rule us))
    (hplus : rest.head? ≠ some .plus) (hminus : rest.head? ≠ some .minus)
    (hround : ∀ fuel, Rule.terms limit rule (fuel + 1) (.of a) (m :: us)
      = (Rule.andThen limit (Rule.term limit rule) op (.of a) us >>= fun r ↦
          Rule.terms limit rule fuel r.1 r.2)) :
    Returns (.of (.binary op a b), rest) Q (Rule.expr limit rule ts) := by
  refine ha.bind fun hP ↦ ?_
  dsimp only
  rw [List.length_cons, hround]
  refine (hb hP).andThen.bind fun hQ ↦ ?_
  rw [Rule.terms_stop _ _ hplus hminus]
  exact .value hQ

theorem expr_of_term {a : Node α} {rule : Rule α}
    (h : Returns (a, rest) P (Rule.term limit rule ts))
    (hplus : rest.head? ≠ some .plus) (hminus : rest.head? ≠ some .minus) :
    Returns (a, rest) P (Rule.expr limit rule ts) := by
  refine h.bind fun hP ↦ ?_
  dsimp only
  rw [Rule.terms_stop _ a hplus hminus]
  exact .value hP

end Returns

/-! ## Bars that open nothing -/

/-- No sum that a bar follows can be read off the tokens. -/
def Closed (limit : Nat) (rest : List (Token α)) : Prop :=
  ∀ n a ts, Rule.expr limit (Rule.factor limit n) rest ≠ .ok (a, .bar :: ts)

/-- Tokens at which a sum stops: the end, a closing parenthesis, or a bar that opens nothing. -/
inductive Stops (limit : Nat) : List (Token α) → Prop
  | nil : Stops limit []
  | closeParen (rest : List (Token α)) : Stops limit (.closeParen :: rest)
  | bar {rest : List (Token α)} (h : Closed limit rest) : Stops limit (.bar :: rest)

variable {ts rest : List (Token α)}

theorem Closed.exists_error (h : Closed limit rest) (n : Nat) :
    ∃ failure, Rule.factor limit n (.bar :: rest) = .error failure := by
  cases hx : Rule.factor limit n (.bar :: rest) with
  | error failure => exact ⟨failure, rfl⟩
  | ok r =>
    cases n with
    | zero => cases hx
    | succ n =>
      obtain ⟨⟨a, mid⟩, hsigned, -⟩ := exists_of_bind_eq_ok hx
      obtain ⟨⟨b, mid'⟩, hexpr, hclose⟩ := exists_of_bind_eq_ok hsigned
      match mid', hclose with
      | .bar :: ts, _ => exact absurd hexpr (h n b ts)

theorem closed_of_head? (hlimit : 0 < limit)
    (h : ∀ t ∈ rest.head?, ¬(t.startsPrimary = true ∨ t = .minus)) : Closed limit rest := by
  intro n a ts hexpr
  obtain ⟨used, hrest, hd, -⟩ := Rule.reads_expr (Rule.reads_factor hlimit n) hexpr
  obtain ⟨t, us, rfl, ht⟩ := hd.exists_head
  exact h t (hrest ▸ rfl) ht

theorem Stops.closed (hlimit : 0 < limit) (h : Stops limit rest) : Closed limit rest := by
  cases h with
  | nil => exact closed_of_head? hlimit nofun
  | closeParen rest =>
    refine closed_of_head? hlimit ?_
    rintro t ⟨⟩
    nofun
  | bar hclosed =>
    intro n a ts hexpr
    obtain ⟨_, hterm, -⟩ := exists_of_bind_eq_ok hexpr
    obtain ⟨_, hfactor, -⟩ := exists_of_bind_eq_ok hterm
    obtain ⟨failure, hfailure⟩ := hclosed.exists_error n
    cases hfactor.symm.trans hfailure

theorem Stops.returns_factors {P : Prop} (h : Stops limit rest) (hP : P) (fuel : Nat) (a : Node α) :
    Returns (a, rest) P (Rule.factors limit (Rule.factor limit n) fuel a rest) := by
  cases h with
  | nil =>
    have hnone : ∀ t ∈ ([] : List (Token α)).head?, Rule.continuesTerm t = false := nofun
    rw [Rule.factors_stop fuel a hnone]
    exact .value hP
  | closeParen rest =>
    rw [Rule.factors_stop fuel a (by rintro t ⟨⟩; rfl)]
    exact .value hP
  | @bar rest hclosed =>
    cases fuel with
    | zero => exact .value hP
    | succ fuel =>
      obtain ⟨⟨left, expected⟩, hfailure⟩ := hclosed.exists_error n
      rw [Rule.factors_bar, hfailure]
      dsimp only
      split
      next hdeep =>
        cases hdeep
        exact .tooDeep left
      next => exact .value hP

theorem Returns.expr {P : Prop} {a : Node α}
    (h : Returns (a, rest) P (Rule.factor limit n ts)) (hstops : Stops limit rest) :
    Returns (a, rest) P (Rule.expr limit (Rule.factor limit n) ts) := by
  have hterm : Returns (a, rest) P (Rule.term limit (Rule.factor limit n) ts) :=
    h.bind fun hP ↦ hstops.returns_factors hP _ a
  exact hterm.expr_of_term (by cases hstops <;> nofun) (by cases hstops <;> nofun)

/-! ## Written formulas -/

variable {a b e : Expr α}

/-- The tokens of the formula are read as an operand in front of tokens that start no sum with a
bar after it, unless they nest too deep. -/
def ReadsBack (limit : Nat) (e : Expr α) : Prop :=
  ∀ n rest, Closed limit rest → Returns (.of e, rest) (e.nesting ≤ n + 1)
    (Rule.primary limit (Rule.factor limit n) (e.tokens ++ rest))

namespace ReadsBack

theorem returns_signed (h : ReadsBack limit e) (n : Nat) (hrest : Closed limit rest) :
    Returns (.of e, rest) (e.nesting ≤ n + 1)
      (Rule.signed limit (Rule.factor limit n) (e.tokens ++ rest)) := by
  rw [Rule.signed_of_head? (e.tokens_append_head?_ne_minus rest)]
  exact h n rest hrest

theorem returns_factor (h : ReadsBack limit e) (n : Nat) (hrest : Closed limit rest)
    (hcaret : rest.head? ≠ some .caret) :
    Returns (.of e, rest) (e.nesting ≤ n) (Rule.factor limit n (e.tokens ++ rest)) := by
  cases n with
  | zero => exact .tooDeep _
  | succ n => exact (h.returns_signed n hrest).factor hcaret

theorem returns_expr_neg (h : ReadsBack limit e) (hlimit : 0 < limit) (n : Nat)
    (hrest : Stops limit rest) :
    Returns (.of (.unary .neg e), rest) ((Expr.unary .neg e).nesting ≤ n + 1)
      (Rule.expr limit (Rule.factor limit n) (.minus :: (e.tokens ++ rest))) := by
  have hcaret : rest.head? ≠ some .caret := by cases hrest <;> nofun
  refine Returns.expr ?_ hrest
  cases n with
  | zero => exact .tooDeep _
  | succ n =>
    refine Returns.factor ?_ hcaret
    refine (h n rest (hrest.closed hlimit)).bind fun hn ↦ ?_
    refine Returns.limited ?_ _ _
    rw [Expr.nesting]
    omega

/-- An operation and its second operand start no sum that a bar follows: the parenthesis after them
is in between. -/
theorem closed_operator (h : ReadsBack limit e) (hlimit : 0 < limit) (op : BinaryOp)
    (rest : List (Token α)) : Closed limit (op.token :: (e.tokens ++ .closeParen :: rest)) := by
  have hothers : op ≠ .sub → Closed limit (op.token :: (e.tokens ++ .closeParen :: rest)) := by
    intro hop
    refine closed_of_head? hlimit ?_
    rintro t ⟨⟩
    cases op with
    | sub => exact absurd rfl hop
    | add | mul | div | pow => nofun
  cases op with
  | sub =>
    intro n a ts hexpr
    have hneg := h.returns_expr_neg hlimit n (.closeParen rest)
    rw [BinaryOp.token] at hexpr
    rw [hexpr] at hneg
    cases hneg
  | add | mul | div | pow => exact hothers nofun

private theorem returns_factor_pow (ha : ReadsBack limit a) (hb : ReadsBack limit b)
    (hlimit : 0 < limit)
    (n : Nat) (rest : List (Token α)) :
    Returns (.of (.binary .pow a b), .closeParen :: rest) ((Expr.binary .pow a b).nesting ≤ n + 1)
      (Rule.factor limit n (a.tokens ++ .caret :: (b.tokens ++ .closeParen :: rest))) := by
  cases n with
  | zero => exact .tooDeep _
  | succ n =>
    refine (ha.returns_signed n (hb.closed_operator hlimit .pow rest)).bind fun hna ↦ ?_
    have hexponent := hb.returns_factor n ((Stops.closeParen rest).closed hlimit) nofun
    refine (hexponent.imp fun hnb ↦ ?_).andThen
    exact Expr.nesting_binary_le_iff.mpr ⟨hna, by omega, fun _ ↦ by omega⟩

private theorem returns_expr_binary (ha : ReadsBack limit a) (hb : ReadsBack limit b)
    (hlimit : 0 < limit)
    (op : BinaryOp) (n : Nat) (rest : List (Token α)) :
    Returns (.of (.binary op a b), .closeParen :: rest) ((Expr.binary op a b).nesting ≤ n + 1)
      (Rule.expr limit (Rule.factor limit n)
        (a.tokens ++ op.token :: (b.tokens ++ .closeParen :: rest))) := by
  have hclosed := hb.closed_operator hlimit op rest
  have hstop : ∀ t ∈ (Token.closeParen :: rest).head?, Rule.continuesTerm t = false := by
    rintro t ⟨⟩
    rfl
  have hta (hop : op = .add ∨ op = .sub) :
      Returns (.of a, op.token :: (b.tokens ++ .closeParen :: rest)) (a.nesting ≤ n)
        (Rule.term limit (Rule.factor limit n)
          (a.tokens ++ op.token :: (b.tokens ++ .closeParen :: rest))) := by
    refine (ha.returns_factor n hclosed ?_).term ?_
    · rcases hop with rfl | rfl <;> nofun
    · rintro t ⟨⟩
      rcases hop with rfl | rfl <;> rfl
  have hfb (hop : op ≠ .pow) (hna : a.nesting ≤ n) :
      Returns (.of b, .closeParen :: rest) ((Expr.binary op a b).nesting ≤ n + 1)
        (Rule.factor limit n (b.tokens ++ .closeParen :: rest)) := by
    refine (hb.returns_factor n ((Stops.closeParen rest).closed hlimit) nofun).imp fun hnb ↦ ?_
    exact Expr.nesting_binary_le_iff.mpr ⟨hna, hnb, fun h ↦ absurd h hop⟩
  cases op with
  | pow => exact (ha.returns_factor_pow hb hlimit n rest).expr (.closeParen rest)
  | mul =>
    have hfa := ha.returns_factor n hclosed nofun
    exact (hfa.joined (hfb nofun) hstop fun _ ↦ Rule.factors_star _ _ _).expr_of_term nofun nofun
  | div =>
    have hfa := ha.returns_factor n hclosed nofun
    exact (hfa.joined (hfb nofun) hstop fun _ ↦ Rule.factors_slash _ _ _).expr_of_term nofun nofun
  | add =>
    exact (hta (.inl rfl)).added (fun hna ↦ (hfb nofun hna).term hstop) nofun nofun fun _ ↦
      Rule.terms_plus _ _ _
  | sub =>
    exact (hta (.inr rfl)).added (fun hna ↦ (hfb nofun hna).term hstop) nofun nofun fun _ ↦
      Rule.terms_minus _ _ _

theorem returns_parens {P : Prop} {ts rest : List (Token α)}
    (h : Returns (.of e, .closeParen :: rest) P (Rule.expr limit (Rule.factor limit n) ts)) :
    Returns (.of e, rest) P (Rule.primary limit (Rule.factor limit n) (.openParen :: ts)) :=
  h.bind .value

end ReadsBack

/-- **Every formula's tokens are read back.** By induction on the formula: in front of whatever
starts no sum with a bar after it, so that the bar which closes a magnitude is among what may
follow its operand. -/
theorem Expr.readsBack (hlimit : 0 < limit) (e : Expr α) : ReadsBack limit e := by
  induction e with
  | const c => exact fun n rest _ ↦ .value (Nat.le_add_left 1 n)
  | var v => exact fun n rest _ ↦ .value (Nat.le_add_left 1 n)
  | unary op a ih =>
    intro n rest hrest
    cases op with
    | neg =>
      rw [tokens_neg_append]
      exact ReadsBack.returns_parens (ih.returns_expr_neg hlimit n (.closeParen rest))
    | abs =>
      have hbar : Stops limit (.bar :: rest) := .bar hrest
      have hsum := (ih.returns_factor n (hbar.closed hlimit) nofun).expr hbar
      rw [tokens_abs_append]
      refine hsum.bind fun hn ↦ Returns.limited ?_ _ _
      rw [nesting]
      omega
  | binary op a b iha ihb =>
    intro n rest _
    rw [tokens_binary_append]
    exact ReadsBack.returns_parens (iha.returns_expr_binary ihb hlimit op n rest)

namespace Expr

theorem returns_expr (hlimit : 0 < limit) (e : Expr α) (n : Nat) :
    Returns (.of e, []) (e.nesting ≤ n) (Rule.expr limit (Rule.factor limit n) e.tokens) := by
  have hend : Stops limit ([] : List (Token α)) := .nil
  have hfactor := (e.readsBack hlimit).returns_factor n (hend.closed hlimit) nofun
  rw [List.append_nil] at hfactor
  exact hfactor.expr hend

theorem returns_ofTokens (e : Expr α) : Returns e (e.nesting ≤ maxNesting) (ofTokens e.tokens) :=
  (e.returns_expr (Nat.succ_pos 1023) maxNesting).bind .value

theorem nesting_le_of_derives (he : e.HasNoMagnitudes) (h : Derives .expr n e.tokens a) :
    e.nesting ≤ n := by
  have hunique : a = e :=
    (Derives.term (.factor (derives_factor_of_primary e.derives_tokens (Nat.le_refl _)))).unique h
      (bar_notMem_tokens he)
  subst hunique
  have hread := h.expr_eq (bar_notMem_tokens he) (Nat.le_succ a.height)
  have hreturns := a.returns_expr (Nat.succ_pos a.height) n
  rw [hread] at hreturns
  cases hreturns with
  | value hn => exact hn

/-- Without magnitudes, a written formula is read if its tokens are derived within the nesting
limit: then the tree is not too high either. -/
theorem ofTokens_eq_of_derives (he : e.HasNoMagnitudes) (h : Derives .expr maxNesting e.tokens a) :
    ofTokens e.tokens = .ok e := by
  have hnesting : e.nesting ≤ maxNesting := nesting_le_of_derives he h
  have hfactor := derives_factor_of_primary e.derives_tokens hnesting
  refine ofTokens_of_derives (.term (.factor hfactor)) (bar_notMem_tokens he) ?_
  exact Nat.le_trans e.height_le_nesting (Nat.le_trans hnesting (by decide))

end Expr

end ImplicitPlot
