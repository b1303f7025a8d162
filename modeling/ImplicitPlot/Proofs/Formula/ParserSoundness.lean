import ImplicitPlot.Formula.Parser
import ImplicitPlot.Proofs.Formula.Grammar
import ImplicitPlot.Proofs.Sequence

/-!
# What the rules read

Every rule of the parser reads what its symbol derives: the tokens that it takes off the front are
derived by the symbol, and the node that it returns is the tree of the derivation. Where a bar is
tried and given back, nothing has been read, so that the statement holds for these texts as well.

The rules take the rule for factors as a parameter, and so do the statements. The two loops extend a
derivation of what has been read before them.
-/

namespace ImplicitPlot

open Grammar

variable {α : Type} {limit n : Nat}

/-- The height of the node is that of its tree, and within the limit. -/
structure Node.Fits (limit : Nat) (a : Node α) : Prop where
  height_eq : a.height = a.expr.height
  height_le : a.height ≤ limit

namespace Node

variable {a b c : Node α} {ts rest : List (Token α)}

theorem eq_of_limited {e : Expr α} {height : Nat}
    (h : limited limit e height ts = .ok (c, rest)) :
    c = ⟨e, height⟩ ∧ rest = ts ∧ height ≤ limit := by
  rw [limited] at h
  split at h
  · cases h
  next hle =>
    cases h
    exact ⟨rfl, rfl, Nat.le_of_not_lt hle⟩

theorem eq_of_unary {op : UnaryOp} (ha : a.Fits limit)
    (h : unary limit op a ts = .ok (c, rest)) :
    c.expr = .unary op a.expr ∧ rest = ts ∧ c.Fits limit := by
  obtain ⟨rfl, rfl, hle⟩ := eq_of_limited h
  exact ⟨rfl, rfl, congrArg (1 + ·) ha.height_eq, hle⟩

private theorem eq_of_binary {op : BinaryOp} (ha : a.Fits limit) (hb : b.Fits limit)
    (h : binary limit op a b ts = .ok (c, rest)) :
    c.expr = .binary op a.expr b.expr ∧ rest = ts ∧ c.Fits limit := by
  obtain ⟨rfl, rfl, hle⟩ := eq_of_limited h
  refine ⟨rfl, rfl, ?_, hle⟩
  rw [Expr.height, ← ha.height_eq, ← hb.height_eq]

end Node

namespace Rule

/-- What a rule reads is derived by the symbol, with the tree of the node that it returns. -/
def Reads (limit n : Nat) (s : Symbol) (rule : Rule α) : Prop :=
  ∀ {ts rest : List (Token α)} {a : Node α}, rule ts = .ok (a, rest) →
    ∃ used, ts = used ++ rest ∧ Derives s n used a.expr ∧ a.Fits limit

variable {s : Symbol} {rule factor : Rule α} {a b : Node α} {ts rest pre : List (Token α)}

theorem reads_andThen (hrule : Reads limit n s rule) {op : BinaryOp} (ha : a.Fits limit)
    (h : andThen limit rule op a ts = .ok (b, rest)) :
    ∃ used e, ts = used ++ rest ∧ Derives s n used e ∧ b.expr = .binary op a.expr e ∧
      b.Fits limit := by
  rw [andThen] at h
  cases hr : rule ts with
  | error f =>
    rw [hr] at h
    cases h
  | ok r =>
    obtain ⟨c, ts'⟩ := r
    rw [hr] at h
    obtain ⟨used, hts, hd, hc⟩ := hrule hr
    obtain ⟨hexpr, rfl, hb⟩ := Node.eq_of_binary ha hc h
    exact ⟨used, c.expr, hts, hd, hexpr, hb⟩

/-! ## One round of a loop -/

/-- A round that joins one more factor. -/
theorem factors_star (fuel : Nat) (a : Node α) (ts : List (Token α)) :
    factors limit factor (fuel + 1) a (.star :: ts) = (andThen limit factor .mul a ts >>= fun r ↦
      factors limit factor fuel r.1 r.2) := rfl

theorem factors_slash (fuel : Nat) (a : Node α) (ts : List (Token α)) :
    factors limit factor (fuel + 1) a (.slash :: ts) = (andThen limit factor .div a ts >>= fun r ↦
      factors limit factor fuel r.1 r.2) := rfl

theorem factors_adjacent (fuel : Nat) (a : Node α) {t : Token α} (ts : List (Token α))
    (ht : t.startsPrimary = true) (hbar : t ≠ .bar) :
    factors limit factor (fuel + 1) a (t :: ts) = (andThen limit factor .mul a (t :: ts) >>= fun r ↦
      factors limit factor fuel r.1 r.2) := by
  cases t with
  | number | letter | openParen => rfl
  | bar => exact absurd rfl hbar
  | plus | minus | star | slash | caret | closeParen => cases ht

/-- A bar starts one more factor, or else the loop stops before it. -/
theorem factors_bar (fuel : Nat) (a : Node α) (ts : List (Token α)) :
    factors limit factor (fuel + 1) a (.bar :: ts) = match factor (.bar :: ts) with
      | .ok _ => andThen limit factor .mul a (.bar :: ts) >>= fun r ↦
          factors limit factor fuel r.1 r.2
      | .error failure =>
        if failure.expected = .lessNesting then .error failure else .ok (a, .bar :: ts) := by
  rw [factors, andThen]
  cases factor (.bar :: ts) with
  | ok => rfl
  | error => rfl

/-- The token joins a further factor to a term. -/
def continuesTerm : Token α → Bool
  | .star | .slash => true
  | t => t.startsPrimary

theorem factors_stop (fuel : Nat) (a : Node α) {ts : List (Token α)}
    (h : ∀ t ∈ ts.head?, continuesTerm t = false) :
    factors limit factor fuel a ts = .ok (a, ts) := by
  cases fuel with
  | zero => rfl
  | succ fuel =>
    match ts with
    | [] => rfl
    | t :: ts =>
      have ht := h t rfl
      cases t with
      | plus | minus | caret | closeParen => rfl
      | number | letter | star | slash | openParen | bar => cases ht

theorem terms_plus (fuel : Nat) (a : Node α) (ts : List (Token α)) :
    terms limit factor (fuel + 1) a (.plus :: ts)
      = (andThen limit (term limit factor) .add a ts >>= fun r ↦ terms limit factor fuel r.1 r.2) :=
  rfl

theorem terms_minus (fuel : Nat) (a : Node α) (ts : List (Token α)) :
    terms limit factor (fuel + 1) a (.minus :: ts)
      = (andThen limit (term limit factor) .sub a ts >>= fun r ↦ terms limit factor fuel r.1 r.2) :=
  rfl

theorem terms_stop (fuel : Nat) (a : Node α) {ts : List (Token α)} (hplus : ts.head? ≠ some .plus)
    (hminus : ts.head? ≠ some .minus) : terms limit factor fuel a ts = .ok (a, ts) := by
  cases fuel with
  | zero => rfl
  | succ fuel =>
    match ts with
    | [] => rfl
    | t :: ts =>
      cases t with
      | plus => exact absurd rfl hplus
      | minus => exact absurd rfl hminus
      | number | letter | star | slash | caret | openParen | closeParen | bar => rfl

/-! ## The loops -/

/-- What has been read before and what is read of these tokens make up the node. -/
def ReadsOn (limit n : Nat) (s : Symbol) (pre ts rest : List (Token α)) (a : Node α) : Prop :=
  ∃ used, ts = used ++ rest ∧ Derives s n (pre ++ used) a.expr ∧ a.Fits limit

theorem readsOn_stop (ha : a.Fits limit) (hpre : Derives s n pre a.expr)
    (h : (.ok (a, ts) : Except Failure _) = .ok (b, rest)) : ReadsOn limit n s pre ts rest b := by
  cases h
  exact ⟨[], rfl, by rwa [List.append_nil], ha⟩

theorem readsOn_round {s' : Symbol} (ms : List (Token α)) (hrule : Reads limit n s' rule)
    {op : BinaryOp} (ha : a.Fits limit) {loop : Node α → Rule α}
    (hloop : ∀ {c ts pre}, c.Fits limit → Derives s n pre c.expr → loop c ts = .ok (b, rest) →
      ReadsOn limit n s pre ts rest b)
    (hjoin : ∀ {used mid e}, ts = used ++ mid → Derives s' n used e →
      Derives s n (pre ++ (ms ++ used)) (.binary op a.expr e))
    (h : (andThen limit rule op a ts >>= fun r ↦ loop r.1 r.2) = .ok (b, rest)) :
    ReadsOn limit n s pre (ms ++ ts) rest b := by
  obtain ⟨⟨c, mid⟩, hc, hrest⟩ := exists_of_bind_eq_ok h
  obtain ⟨used, e, rfl, hd, hexpr, hfits⟩ := reads_andThen hrule ha hc
  obtain ⟨used', rfl, hd', hb⟩ := hloop hfits (hexpr ▸ hjoin rfl hd) hrest
  refine ⟨ms ++ used ++ used', ?_, ?_, hb⟩
  · rw [List.append_assoc, List.append_assoc]
  · rwa [← List.append_assoc]

/-- **The loop over factors** extends a term by what it reads. By induction on the bound of the
loop: in each round a factor is joined to a longer term, or the loop stops. -/
theorem reads_factors (hfactor : Reads limit n .factor factor) {fuel : Nat} (ha : a.Fits limit)
    (hpre : Derives .term n pre a.expr) (h : factors limit factor fuel a ts = .ok (b, rest)) :
    ReadsOn limit n .term pre ts rest b := by
  induction fuel generalizing a ts pre with
  | zero => exact readsOn_stop ha hpre h
  | succ fuel ih =>
    have hadjacent : ∀ {t : Token α} {us : List (Token α)}, t.startsPrimary = true →
        (andThen limit factor .mul a (t :: us) >>= fun r ↦ factors limit factor fuel r.1 r.2)
          = .ok (b, rest) →
        ReadsOn limit n .term pre (t :: us) rest b := by
      intro t us ht hround
      refine readsOn_round [] hfactor ha ih ?_ hround
      intro used mid e hts hd
      exact .adjacent hpre hd (hd.head?_ne_minus hts ht)
    match ts with
    | .star :: ts => exact readsOn_round [.star] hfactor ha ih (fun _ hd ↦ .times hpre hd) h
    | .slash :: ts => exact readsOn_round [.slash] hfactor ha ih (fun _ hd ↦ .divided hpre hd) h
    | .bar :: ts =>
      rw [factors_bar] at h
      split at h
      · exact hadjacent rfl h
      -- A bar that starts no factor is given back, and nothing has been read.
      · split at h
        · cases h
        · exact readsOn_stop ha hpre h
    | .number _ :: _ | .letter _ :: _ | .openParen :: _ => exact hadjacent rfl h
    | [] => exact readsOn_stop ha hpre h
    | .plus :: _ | .minus :: _ | .caret :: _ | .closeParen :: _ => exact readsOn_stop ha hpre h

theorem reads_term (hfactor : Reads limit n .factor factor) :
    Reads limit n .term (term limit factor) := by
  intro ts rest b h
  obtain ⟨⟨a, mid⟩, ha, hloop⟩ := exists_of_bind_eq_ok h
  obtain ⟨used, rfl, hd, hfits⟩ := hfactor ha
  obtain ⟨used', rfl, hd', hb⟩ := reads_factors hfactor hfits (.factor hd) hloop
  exact ⟨used ++ used', (List.append_assoc _ _ _).symm, hd', hb⟩

/-- **The loop over terms** extends a sum by what it reads. -/
theorem reads_terms (hfactor : Reads limit n .factor factor) {fuel : Nat} (ha : a.Fits limit)
    (hpre : Derives .expr n pre a.expr) (h : terms limit factor fuel a ts = .ok (b, rest)) :
    ReadsOn limit n .expr pre ts rest b := by
  induction fuel generalizing a ts pre with
  | zero => exact readsOn_stop ha hpre h
  | succ fuel ih =>
    have hterm : Reads limit n .term (term limit factor) := reads_term hfactor
    match ts with
    | .plus :: ts => exact readsOn_round [.plus] hterm ha ih (fun _ hd ↦ .plus hpre hd) h
    | .minus :: ts => exact readsOn_round [.minus] hterm ha ih (fun _ hd ↦ .minus hpre hd) h
    | [] => exact readsOn_stop ha hpre h
    | .number _ :: _ | .letter _ :: _ | .star :: _ | .slash :: _ | .caret :: _ | .openParen :: _
    | .closeParen :: _ | .bar :: _ => exact readsOn_stop ha hpre h

theorem reads_expr (hfactor : Reads limit n .factor factor) :
    Reads limit n .expr (expr limit factor) := by
  intro ts rest b h
  obtain ⟨⟨a, mid⟩, ha, hloop⟩ := exists_of_bind_eq_ok h
  obtain ⟨used, rfl, hd, hfits⟩ := reads_term hfactor ha
  obtain ⟨used', rfl, hd', hb⟩ := reads_terms hfactor hfits (.term hd) hloop
  exact ⟨used ++ used', (List.append_assoc _ _ _).symm, hd', hb⟩

/-! ## Operands -/

theorem reads_primary (hlimit : 0 < limit) (hfactor : Reads limit n .factor factor) :
    Reads limit n .primary (primary limit factor) := by
  intro ts rest b h
  match ts with
  | .letter v :: ts =>
    cases h
    exact ⟨[.letter v], rfl, .letter n v, rfl, hlimit⟩
  | .number c :: ts =>
    cases h
    exact ⟨[.number c], rfl, .number n c, rfl, hlimit⟩
  | .openParen :: ts =>
    obtain ⟨⟨a, mid⟩, ha, hclose⟩ := exists_of_bind_eq_ok h
    obtain ⟨used, rfl, hd, hfits⟩ := reads_expr hfactor ha
    match mid, hclose with
    | .closeParen :: mid, hclose =>
      cases hclose
      exact ⟨.openParen :: used ++ [.closeParen], by simp, .parens hd, hfits⟩
  | .bar :: ts =>
    obtain ⟨⟨a, mid⟩, ha, hclose⟩ := exists_of_bind_eq_ok h
    obtain ⟨used, rfl, hd, hfits⟩ := reads_expr hfactor ha
    match mid, hclose with
    | .bar :: mid, hclose =>
      obtain ⟨hexpr, rfl, hb⟩ := Node.eq_of_unary hfits hclose
      exact ⟨.bar :: used ++ [.bar], by simp, hexpr ▸ .bars hd, hb⟩

theorem reads_signed (hlimit : 0 < limit) (hfactor : Reads limit n .factor factor) :
    Reads limit n .signed (signed limit factor) := by
  intro ts rest b h
  have hplain : primary limit factor ts = .ok (b, rest) →
      ∃ used, ts = used ++ rest ∧ Derives .signed n used b.expr ∧ b.Fits limit := by
    intro hprimary
    obtain ⟨used, hts, hd, hb⟩ := reads_primary hlimit hfactor hprimary
    exact ⟨used, hts, .unsigned hd, hb⟩
  match ts with
  | .minus :: ts =>
    obtain ⟨⟨a, mid⟩, ha, hneg⟩ := exists_of_bind_eq_ok h
    obtain ⟨used, rfl, hd, hfits⟩ := reads_primary hlimit hfactor ha
    obtain ⟨hexpr, rfl, hb⟩ := Node.eq_of_unary hfits hneg
    exact ⟨.minus :: used, rfl, hexpr ▸ .negated hd, hb⟩
  | [] => exact hplain h
  | .number _ :: _ | .letter _ :: _ | .plus :: _ | .star :: _ | .slash :: _ | .caret :: _
  | .openParen :: _ | .closeParen :: _ | .bar :: _ => exact hplain h

private theorem reads_power (hlimit : 0 < limit) (hfactor : Reads limit n .factor factor) :
    Reads limit (n + 1) .factor (power limit factor) := by
  intro ts rest b h
  obtain ⟨⟨a, mid⟩, ha, hrest⟩ := exists_of_bind_eq_ok h
  obtain ⟨used, rfl, hd, hfits⟩ := reads_signed hlimit hfactor ha
  have hplain : Except.ok (ε := Failure) (a, mid) = .ok (b, rest) →
      ∃ used', used ++ mid = used' ++ rest ∧ Derives .factor (n + 1) used' b.expr ∧
        b.Fits limit := by
    intro heq
    cases heq
    exact ⟨used, rfl, .operand hd, hfits⟩
  match mid with
  | .caret :: mid =>
    obtain ⟨used', e, rfl, hd', hexpr, hb⟩ := reads_andThen hfactor hfits hrest
    exact ⟨used ++ .caret :: used', by simp, hexpr ▸ .power hd hd', hb⟩
  | [] => exact hplain hrest
  | .number _ :: _ | .letter _ :: _ | .plus :: _ | .minus :: _ | .star :: _ | .slash :: _
  | .openParen :: _ | .closeParen :: _ | .bar :: _ => exact hplain hrest

/-- **A factor reads what it derives**, within its budget. By induction on the budget: its parts
have one less. -/
theorem reads_factor (hlimit : 0 < limit) (n : Nat) :
    Reads limit n .factor (Rule.factor limit n : Rule α) := by
  induction n with
  | zero =>
    intro ts rest a h
    cases h
  | succ n ih => exact reads_power hlimit ih

end Rule

theorem Expr.derives_of_ofTokens {ts : List (Token α)} {e : Expr α} (h : ofTokens ts = .ok e) :
    Derives .expr maxNesting ts e ∧ e.height ≤ maxHeight := by
  obtain ⟨⟨a, rest⟩, ha, hend⟩ := exists_of_bind_eq_ok h
  have hfactor : Rule.Reads maxHeight maxNesting .factor
      (Rule.factor maxHeight maxNesting : Rule α) := Rule.reads_factor (by decide) maxNesting
  obtain ⟨used, rfl, hd, hfits⟩ := Rule.reads_expr hfactor ha
  dsimp only at hend
  split at hend
  next hempty =>
    cases hend
    rw [List.isEmpty_iff.mp hempty, List.append_nil]
    exact ⟨hd, hfits.height_eq ▸ hfits.height_le⟩
  next => cases hend

end ImplicitPlot
