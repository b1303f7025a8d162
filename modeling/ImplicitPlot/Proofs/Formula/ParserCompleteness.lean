import ImplicitPlot.Proofs.Formula.ParserSoundness

/-!
# What is derived is read

Without bars, every derivation is found by the parser: a rule applied to the tokens of a derivation,
and any tokens after them that do not go on with the symbol, returns the tree of the derivation and
the tokens after it. Nothing has to be tried and given back, since one token tells how to go on.

The loops read a sum or product from the left, while its derivation is taken apart from the right.
So the statement for a term says where the loop stands once the term has been read, and not yet that
it stops there.

The height limit is arbitrary here. Any two derivations of the same tokens are therefore found by
one parser, and have the same tree.
-/

namespace ImplicitPlot

open Grammar

variable {α : Type} {limit n : Nat}

/-! ## Nodes and rules that succeed -/

namespace Node

/-- The node of a tree. -/
def of (e : Expr α) : Node α := ⟨e, e.height⟩

private theorem unary_of {op : UnaryOp} {a : Expr α} (h : (Expr.unary op a).height ≤ limit)
    (ts : List (Token α)) : unary limit op (of a) ts = .ok (of (.unary op a), ts) :=
  if_neg (Nat.not_lt_of_le h)

private theorem binary_of {op : BinaryOp} {a b : Expr α} (h : (Expr.binary op a b).height ≤ limit)
    (ts : List (Token α)) : binary limit op (of a) (of b) ts = .ok (of (.binary op a b), ts) :=
  if_neg (Nat.not_lt_of_le h)

end Node

namespace Rule

variable {rule factor : Rule α} {a b : Expr α} {ts rest : List (Token α)}

theorem andThen_of {op : BinaryOp} (hb : rule ts = .ok (.of b, rest))
    (h : (Expr.binary op a b).height ≤ limit) :
    andThen limit rule op (.of a) ts = .ok (.of (.binary op a b), rest) := by
  rw [andThen, hb]
  exact Node.binary_of h rest

theorem signed_of_head? (h : ts.head? ≠ some .minus) :
    signed limit factor ts = primary limit factor ts := by
  match ts with
  | [] => rfl
  | t :: ts =>
    cases t with
    | minus => exact absurd rfl h
    | number | letter | plus | star | slash | caret | openParen | closeParen | bar => rfl

theorem power_of_head? {a : Node α} (ha : signed limit factor ts = .ok (a, rest))
    (h : rest.head? ≠ some .caret) : power limit factor ts = .ok (a, rest) := by
  rw [power, ha]
  match rest with
  | [] => rfl
  | t :: rest =>
    cases t with
    | caret => exact absurd rfl h
    | number | letter | plus | minus | star | slash | openParen | closeParen | bar => rfl

end Rule

/-! ## Derivations -/

namespace Grammar

open Rule

/-- The token goes on with a term, or with the last factor of one. -/
def goesOn : Token α → Bool
  | .caret => true
  | t => continuesTerm t

/-- The rule of a symbol takes the tokens off the front and returns the tree, if the tokens after
them do not go on with the symbol. A sum or product may go on: then its loop has got this far, with
rounds left for all tokens. -/
def Finds (limit : Nat) : Symbol → Nat → List (Token α) → Expr α → Prop
  | .primary, n, ts, e => ∀ rest, primary limit (factor limit n) (ts ++ rest) = .ok (.of e, rest)
  | .signed, n, ts, e => ∀ rest, signed limit (factor limit n) (ts ++ rest) = .ok (.of e, rest)
  | .factor, n, ts, e => ∀ rest, rest.head? ≠ some .caret →
      factor limit n (ts ++ rest) = .ok (.of e, rest)
  | .term, n, ts, e => ∀ rest, rest.head? ≠ some .caret → ∃ fuel, rest.length ≤ fuel ∧
      term limit (factor limit n) (ts ++ rest) = factors limit (factor limit n) fuel (.of e) rest
  | .expr, n, ts, e => ∀ rest, (∀ t ∈ rest.head?, goesOn t = false) → ∃ fuel, rest.length ≤ fuel ∧
      expr limit (factor limit n) (ts ++ rest) = terms limit (factor limit n) fuel (.of e) rest

private theorem head?_ne_caret {rest : List (Token α)} (h : ∀ t ∈ rest.head?, goesOn t = false) :
    rest.head? ≠ some .caret := by
  intro hcaret
  exact absurd (h _ hcaret) nofun

private theorem continuesTerm_eq_false {rest : List (Token α)}
    (h : ∀ t ∈ rest.head?, goesOn t = false) :
    ∀ t ∈ rest.head?, continuesTerm t = false := by
  intro t ht
  have hgo := h t ht
  cases t with
  | caret => cases hgo
  | number | letter | plus | minus | star | slash | openParen | closeParen | bar => exact hgo

theorem Finds.term_eq {ts rest : List (Token α)} {e : Expr α} (h : Finds limit .term n ts e)
    (hrest : ∀ t ∈ rest.head?, goesOn t = false) :
    term limit (factor limit n) (ts ++ rest) = .ok (.of e, rest) := by
  obtain ⟨fuel, -, heq⟩ := h rest (head?_ne_caret hrest)
  rw [heq, factors_stop _ _ (continuesTerm_eq_false hrest)]

/-- A sum that does not go on is read to its end. -/
theorem Finds.expr_eq {ts rest : List (Token α)} {e : Expr α} (h : Finds limit .expr n ts e)
    (hrest : ∀ t ∈ rest.head?, goesOn t = false) (hplus : rest.head? ≠ some .plus)
    (hminus : rest.head? ≠ some .minus) :
    expr limit (factor limit n) (ts ++ rest) = .ok (.of e, rest) := by
  obtain ⟨fuel, -, heq⟩ := h rest hrest
  rw [heq, terms_stop _ _ hplus hminus]

/-! ## One production at a time -/

variable {ts us : List (Token α)} {a b e : Expr α}

private theorem finds_parens (h : Finds limit .expr n ts e) :
    Finds limit .primary n (.openParen :: ts ++ [.closeParen]) e := by
  intro rest
  have hinner : expr limit (factor limit n) (ts ++ .closeParen :: rest)
      = .ok (.of e, .closeParen :: rest) := by
    refine h.expr_eq ?_ nofun nofun
    rintro t ⟨⟩
    rfl
  rw [List.append_assoc, List.cons_append, List.singleton_append]
  change (expr limit (factor limit n) (ts ++ .closeParen :: rest) >>= _) = _
  rw [hinner]
  rfl

private theorem finds_unsigned (hd : Derives .primary n ts e) (h : Finds limit .primary n ts e) :
    Finds limit .signed n ts e := by
  intro rest
  obtain ⟨t, us, rfl, -⟩ := hd.exists_head
  have hhead : (t :: us ++ rest).head? ≠ some .minus := hd.head?_ne_minus_of_primary
  rw [signed_of_head? hhead]
  exact h rest

private theorem finds_negated (h : Finds limit .primary n ts e)
    (hheight : (Expr.unary .neg e).height ≤ limit) :
    Finds limit .signed n (.minus :: ts) (.unary .neg e) := by
  intro rest
  change (primary limit (factor limit n) (ts ++ rest) >>= _) = _
  rw [h rest]
  exact Node.unary_of hheight rest

private theorem finds_operand (h : Finds limit .signed n ts e) :
    Finds limit .factor (n + 1) ts e := by
  intro rest hrest
  exact power_of_head? (h rest) hrest

private theorem finds_power (ha : Finds limit .signed n ts a) (hb : Finds limit .factor n us b)
    (hheight : (Expr.binary .pow a b).height ≤ limit) :
    Finds limit .factor (n + 1) (ts ++ .caret :: us) (.binary .pow a b) := by
  intro rest hrest
  rw [List.append_assoc, List.cons_append]
  change (signed limit (factor limit n) (ts ++ .caret :: (us ++ rest)) >>= _) = _
  rw [ha]
  exact andThen_of (hb rest hrest) hheight

private theorem finds_factor (h : Finds limit .factor n ts e) : Finds limit .term n ts e := by
  intro rest hrest
  refine ⟨rest.length, Nat.le_refl _, ?_⟩
  rw [term, h rest hrest]
  rfl

/-- The loop over factors stands before a token by which it joins a factor, and comes to stand after
the factor, with rounds left for the tokens from there on. -/
theorem finds_joined {op : BinaryOp} {m : Token α} {ms : List (Token α)}
    (ha : Finds limit .term n ts a) (hb : Finds limit .factor n us b)
    (hheight : (Expr.binary op a b).height ≤ limit) (hm : m ≠ .caret)
    (hround : ∀ fuel rest, factors limit (factor limit n) (fuel + 1) (.of a) (m :: (ms ++ rest))
      = (andThen limit (factor limit n) op (.of a) (us ++ rest) >>= fun r ↦
          factors limit (factor limit n) fuel r.1 r.2)) :
    Finds limit .term n (ts ++ m :: ms) (.binary op a b) := by
  intro rest hrest
  have hcaret : (m :: (ms ++ rest)).head? ≠ some .caret := fun h ↦ hm (Option.some.inj h)
  obtain ⟨fuel, hfuel, heq⟩ := ha (m :: (ms ++ rest)) hcaret
  -- There are rounds for all tokens, so there is one for the token that joins the factor.
  rw [List.length_cons, List.length_append] at hfuel
  obtain ⟨fuel, rfl⟩ := Nat.exists_eq_add_of_lt (Nat.lt_of_lt_of_le (Nat.succ_pos _) hfuel)
  refine ⟨fuel, by omega, ?_⟩
  rw [List.append_assoc, List.cons_append, heq, Nat.zero_add, hround,
    andThen_of (hb rest hrest) hheight]
  rfl

private theorem finds_term (h : Finds limit .term n ts e) : Finds limit .expr n ts e := by
  intro rest hrest
  refine ⟨rest.length, Nat.le_refl _, ?_⟩
  rw [expr, h.term_eq hrest]
  rfl

/-- The loop over terms stands before a sign, joins the term after it, and comes to stand after the
term. -/
theorem finds_added {op : BinaryOp} {m : Token α} (ha : Finds limit .expr n ts a)
    (hb : Finds limit .term n us b) (hheight : (Expr.binary op a b).height ≤ limit)
    (hm : goesOn m = false)
    (hround : ∀ fuel ts, terms limit (factor limit n) (fuel + 1) (.of a) (m :: ts)
      = (andThen limit (term limit (factor limit n)) op (.of a) ts >>= fun r ↦
          terms limit (factor limit n) fuel r.1 r.2)) :
    Finds limit .expr n (ts ++ m :: us) (.binary op a b) := by
  intro rest hrest
  have hgo : ∀ t ∈ (m :: (us ++ rest)).head?, goesOn t = false := by
    rintro t ⟨⟩
    exact hm
  obtain ⟨fuel, hfuel, heq⟩ := ha (m :: (us ++ rest)) hgo
  rw [List.length_cons, List.length_append] at hfuel
  obtain ⟨fuel, rfl⟩ := Nat.exists_eq_add_of_lt (Nat.lt_of_lt_of_le (Nat.succ_pos _) hfuel)
  refine ⟨fuel, by omega, ?_⟩
  rw [List.append_assoc, List.cons_append, heq, Nat.zero_add, hround,
    andThen_of (hb.term_eq hrest) hheight]
  rfl

theorem notMem_of_notMem_join {t m : Token α} (h : t ∉ ts ++ m :: us) : t ∉ ts ∧ t ∉ us :=
  ⟨fun hmem ↦ h (List.mem_append_left _ hmem),
    fun hmem ↦ h (List.mem_append_right _ (List.mem_cons_of_mem _ hmem))⟩

/-- **Derivations are found.** By induction on the derivation, if it has no bars and its tree is
within the limit, as the trees in it then are. -/
theorem Derives.finds {s : Symbol} (h : Derives s n ts e) (hbar : .bar ∉ ts)
    (hheight : e.height ≤ limit) : Finds limit s n ts e := by
  induction h with
  | letter | number => exact fun rest ↦ rfl
  | parens _ ih =>
    refine finds_parens (ih (fun hmem ↦ hbar ?_) hheight)
    exact List.mem_append_left _ (List.mem_cons_of_mem _ hmem)
  | bars _ _ => exact absurd (List.mem_append_left _ List.mem_cons_self) hbar
  | unsigned hd ih => exact finds_unsigned hd (ih hbar hheight)
  | negated hd ih =>
    refine finds_negated (ih (fun hmem ↦ hbar (List.mem_cons_of_mem _ hmem)) ?_) hheight
    exact Nat.le_trans (Nat.le_add_left _ 1) hheight
  | operand _ ih => exact finds_operand (ih hbar hheight)
  | factor _ ih => exact finds_factor (ih hbar hheight)
  | term _ ih => exact finds_term (ih hbar hheight)
  | power _ _ iha ihb =>
    obtain ⟨hbarA, hbarB⟩ := notMem_of_notMem_join hbar
    obtain ⟨ha, hb⟩ := Expr.height_le_of_binary hheight
    exact finds_power (iha hbarA ha) (ihb hbarB hb) hheight
  | times _ _ iha ihb =>
    obtain ⟨hbarA, hbarB⟩ := notMem_of_notMem_join hbar
    obtain ⟨ha, hb⟩ := Expr.height_le_of_binary hheight
    exact finds_joined (iha hbarA ha) (ihb hbarB hb) hheight nofun fun _ _ ↦ factors_star _ _ _
  | divided _ _ iha ihb =>
    obtain ⟨hbarA, hbarB⟩ := notMem_of_notMem_join hbar
    obtain ⟨ha, hb⟩ := Expr.height_le_of_binary hheight
    exact finds_joined (iha hbarA ha) (ihb hbarB hb) hheight nofun fun _ _ ↦ factors_slash _ _ _
  | adjacent _ hd hsign iha ihb =>
    obtain ⟨ha, hb⟩ := Expr.height_le_of_binary hheight
    have hbarA := fun hmem ↦ hbar (List.mem_append_left _ hmem)
    have hbarB := fun hmem ↦ hbar (List.mem_append_right _ hmem)
    -- Without bars, the token that starts the factor is one that joins it at once.
    obtain ⟨t, us, rfl, ht⟩ := hd.exists_startsPrimary hsign
    have htbar : t ≠ .bar := by
      rintro rfl
      exact hbarB List.mem_cons_self
    have htcaret : t ≠ .caret := by
      rintro rfl
      cases ht
    exact finds_joined (iha hbarA ha) (ihb hbarB hb) hheight htcaret fun _ _ ↦
      factors_adjacent _ _ _ ht htbar
  | plus _ _ iha ihb =>
    obtain ⟨hbarA, hbarB⟩ := notMem_of_notMem_join hbar
    obtain ⟨ha, hb⟩ := Expr.height_le_of_binary hheight
    exact finds_added (iha hbarA ha) (ihb hbarB hb) hheight rfl fun _ _ ↦ terms_plus _ _ _
  | minus _ _ iha ihb =>
    obtain ⟨hbarA, hbarB⟩ := notMem_of_notMem_join hbar
    obtain ⟨ha, hb⟩ := Expr.height_le_of_binary hheight
    exact finds_added (iha hbarA ha) (ihb hbarB hb) hheight rfl fun _ _ ↦ terms_minus _ _ _

/-- A sum that makes up all tokens is read. -/
theorem Derives.expr_eq (h : Derives .expr n ts e) (hbar : .bar ∉ ts) (hheight : e.height ≤ limit) :
    Rule.expr limit (Rule.factor limit n) ts = .ok (.of e, []) := by
  have heq : Rule.expr limit (Rule.factor limit n) (ts ++ []) = .ok (.of e, []) :=
    (h.finds hbar hheight).expr_eq nofun nofun nofun
  rwa [List.append_nil] at heq

/-- **The grammar is unambiguous** where there are no bars: a parser with large enough limits finds
both trees. -/
theorem Derives.unique {m : Nat} {e' : Expr α} (h : Derives .expr n ts e)
    (h' : Derives .expr m ts e') (hbar : .bar ∉ ts) : e' = e := by
  have heq := (h.mono (Nat.le_max_left n m)).expr_eq hbar (Nat.le_max_left e.height e'.height)
  have heq' := (h'.mono (Nat.le_max_right n m)).expr_eq hbar (Nat.le_max_right e.height e'.height)
  cases heq'.symm.trans heq
  rfl

end Grammar

theorem Expr.ofTokens_of_derives {ts : List (Token α)} {e : Expr α}
    (h : Derives .expr maxNesting ts e) (hbar : .bar ∉ ts) (hheight : e.height ≤ maxHeight) :
    ofTokens ts = .ok e := by
  rw [ofTokens, h.expr_eq hbar hheight]
  rfl

namespace Expr

theorem parse_of_list {text : String} {lexemes : List Lexeme} (h : Lexeme.list text = .ok lexemes) :
    parse text = match ofTokens (lexemes.map (·.token)) with
      | .ok e => .ok e
      | .error f => .error ⟨f.position lexemes text.utf8ByteSize, f.expected⟩ := by
  rw [parse, h]
  rfl

/-- **The parser accepts the grammar.** A formula that is read from a text is derived from its
tokens by the grammar. A text without bars is read if its tokens are derived within both limits, and
then as the only tree that they have; if they are not, the text has a syntax error. -/
theorem parse_accepts_grammar (text : String) (lexemes : List Lexeme)
    (h : Lexeme.list text = .ok lexemes) :
    (∀ e, parse text = .ok e →
      Derives .expr maxNesting (lexemes.map (·.token)) e ∧ e.height ≤ maxHeight) ∧
    (.bar ∉ lexemes.map (·.token) →
      (∀ e, Derives .expr maxNesting (lexemes.map (·.token)) e → e.height ≤ maxHeight →
        parse text = .ok e ∧ ∀ n e', Derives .expr n (lexemes.map (·.token)) e' → e' = e) ∧
      ((¬∃ e, Derives .expr maxNesting (lexemes.map (·.token)) e ∧ e.height ≤ maxHeight) →
        ∃ error, parse text = .error error)) := by
  have hparse := parse_of_list h
  have hsound : ∀ e, parse text = .ok e →
      Derives .expr maxNesting (lexemes.map (·.token)) e ∧ e.height ≤ maxHeight := by
    intro e he
    rw [hparse] at he
    split at he
    next e' hread =>
      cases he
      exact derives_of_ofTokens hread
    next => cases he
  refine ⟨hsound, fun hbar ↦ ⟨?_, ?_⟩⟩
  · intro e hd hheight
    refine ⟨?_, fun n e' hd' ↦ hd.unique hd' hbar⟩
    rw [hparse, ofTokens_of_derives hd hbar hheight]
  · intro hnone
    cases hread : parse text with
    | ok e => exact absurd ⟨e, hsound e hread⟩ hnone
    | error error => exact ⟨error, rfl⟩

/-- Factors next to each other are multiplied. -/
theorem parse_adjacent :
    parse "y(y-x)" = .ok (.binary .mul (.var .y) (.binary .sub (.var .y) (.var .x))) := by
  have hy : ∀ n, Derives .factor (n + 1) [.letter .y] (.var .y : Expr Float) :=
    fun n ↦ .operand (.unsigned (.letter n .y))
  have hx : ∀ n, Derives .factor (n + 1) [.letter .x] (.var .x : Expr Float) :=
    fun n ↦ .operand (.unsigned (.letter n .x))
  have hdifference : Derives .expr 255 [.letter .y, .minus, .letter .x]
      (.binary .sub (.var .y) (.var .x) : Expr Float) :=
    .minus (.term (.factor (hy 254))) (.factor (hx 254))
  have hproduct : Derives .expr maxNesting
      [.letter .y, .openParen, .letter .y, .minus, .letter .x, .closeParen]
      (.binary .mul (.var .y) (.binary .sub (.var .y) (.var .x)) : Expr Float) :=
    .term (.adjacent (.factor (hy 255)) (.operand (.unsigned (.parens hdifference))) nofun)
  have haccepted := parse_accepts_grammar "y(y-x)"
    [⟨0, 1, .letter .y⟩, ⟨1, 1, .openParen⟩, ⟨2, 1, .letter .y⟩, ⟨3, 1, .minus⟩, ⟨4, 1, .letter .x⟩,
      ⟨5, 1, .closeParen⟩] rfl
  exact ((haccepted.2 (by decide)).1 _ hproduct (by decide)).1

end Expr

end ImplicitPlot
