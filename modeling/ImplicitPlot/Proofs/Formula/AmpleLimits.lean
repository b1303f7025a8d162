import ImplicitPlot.Proofs.Formula.Lookahead
import ImplicitPlot.Proofs.Formula.ReadingLimits

/-!
# Limits that are out of reach

A factor inside another one stands after a token of the outer one, and a tree has no more nodes
above each other than its formula has tokens. So no limit is met if the limits exceed the number of
the tokens, `Rule.unhindered_factor`.
-/

namespace ImplicitPlot

variable {α : Type} {limit n bound : Nat}

/-- No limit has been met, and the height of what has been read and the number of the tokens that
are left make up no more than the bound. -/
inductive Ample (bound : Nat) : Except Failure (Node α × List (Token α)) → Prop
  | value {a : Node α} {rest : List (Token α)} (hpos : 0 < a.height)
      (hle : a.height + rest.length ≤ bound) : Ample bound (.ok (a, rest))
  | failure {f : Failure} (h : f.expected ≠ .lessNesting) : Ample bound (.error f)

theorem Ample.bind {bound' : Nat} {x : Except Failure (Node α × List (Token α))}
    {k : Node α → Rule α} (h : Ample bound x)
    (hk : ∀ a rest, 0 < a.height → a.height + rest.length ≤ bound → Ample bound' (k a rest)) :
    Ample bound' (x >>= fun r ↦ k r.1 r.2) := by
  cases h with
  | value hpos hle => exact hk _ _ hpos hle
  | failure h => exact .failure h

namespace Rule

variable {rule factor : Rule α} {a : Node α} {ts rest : List (Token α)} {op : BinaryOp}

/-- The rule meets no limit if it is given less tokens than `n`, and not more than the limit. -/
def Unhindered (limit n : Nat) (rule : Rule α) : Prop :=
  ∀ ts : List (Token α), ts.length < n → ts.length ≤ limit → Ample ts.length (rule ts)

theorem ample_limited {e : Expr α} {height : Nat} (hpos : 0 < height)
    (hle : height + ts.length ≤ bound) (hlimit : bound ≤ limit) :
    Ample bound (Node.limited limit e height ts) := by
  rw [Node.limited, if_neg (by omega)]
  exact .value hpos hle

theorem ample_andThen (h : Unhindered limit n rule) (hn : bound ≤ n) (hlimit : bound ≤ limit)
    (ha : 0 < a.height) (hle : a.height + ts.length ≤ bound) :
    Ample bound (andThen limit rule op a ts) := by
  refine (h ts (by omega) (by omega)).bind (k := Node.binary limit op a) fun b rest hb hrest ↦ ?_
  exact ample_limited (by omega) (by omega) hlimit

private theorem ample_factors (h : Unhindered limit n factor) (hn : bound ≤ n)
    (hlimit : bound ≤ limit)
    (rounds : Nat) (ha : 0 < a.height) (hle : a.height + ts.length ≤ bound) :
    Ample bound (factors limit factor rounds a ts) := by
  induction rounds generalizing a ts with
  | zero => exact .value ha hle
  | succ rounds ih =>
    have hround {us : List (Token α)} (hus : us.length ≤ ts.length) {op : BinaryOp} :
        Ample bound (andThen limit factor op a us >>= fun r ↦
          factors limit factor rounds r.1 r.2) :=
      (ample_andThen h hn hlimit ha (by omega)).bind fun b rest hb hrest ↦ ih hb hrest
    match ts with
    | .star :: ts | .slash :: ts => exact hround (Nat.le_succ _)
    | .bar :: ts =>
      have hfactor := h (.bar :: ts) (by omega) (by omega)
      rw [factors_bar]
      cases hx : factor (.bar :: ts) with
      | ok r => exact hround (Nat.le_refl _)
      | error f =>
        rw [hx] at hfactor
        cases hfactor with
        | failure hdeep =>
          dsimp only
          rw [if_neg hdeep]
          exact .value ha hle
    | .number _ :: _ | .letter _ :: _ | .openParen :: _ => exact hround (Nat.le_refl _)
    | [] | .plus :: _ | .minus :: _ | .caret :: _ | .closeParen :: _ => exact .value ha hle

theorem unhindered_term (h : Unhindered limit n factor) :
    Unhindered limit n (term limit factor) :=
  fun ts hn hlimit ↦ (h ts hn hlimit).bind
    (k := fun a rest ↦ factors limit factor rest.length a rest)
    fun _ _ ↦ ample_factors h (Nat.le_of_lt hn) hlimit _

private theorem ample_terms (h : Unhindered limit n factor) (hn : bound ≤ n)
    (hlimit : bound ≤ limit)
    (rounds : Nat) (ha : 0 < a.height) (hle : a.height + ts.length ≤ bound) :
    Ample bound (terms limit factor rounds a ts) := by
  induction rounds generalizing a ts with
  | zero => exact .value ha hle
  | succ rounds ih =>
    have hround {us : List (Token α)} (hus : us.length ≤ ts.length) {op : BinaryOp} :
        Ample bound (andThen limit (term limit factor) op a us >>= fun r ↦
          terms limit factor rounds r.1 r.2) :=
      (ample_andThen (unhindered_term h) hn hlimit ha (by omega)).bind
        fun b rest hb hrest ↦ ih hb hrest
    match ts with
    | .plus :: ts | .minus :: ts => exact hround (Nat.le_succ _)
    | [] | .number _ :: _ | .letter _ :: _ | .star :: _ | .slash :: _ | .caret :: _
    | .openParen :: _ | .closeParen :: _ | .bar :: _ => exact .value ha hle

theorem unhindered_expr (h : Unhindered limit n factor) :
    Unhindered limit n (expr limit factor) :=
  fun ts hn hlimit ↦ (unhindered_term h ts hn hlimit).bind
    (k := fun a rest ↦ terms limit factor rest.length a rest)
    fun _ _ ↦ ample_terms h (Nat.le_of_lt hn) hlimit _

private theorem ample_endParens (ha : 0 < a.height) (hle : a.height + ts.length ≤ bound) :
    Ample bound (endParens a ts) := by
  match ts with
  | .closeParen :: ts => exact .value ha (Nat.le_of_succ_le hle)
  | [] | .number _ :: _ | .letter _ :: _ | .plus :: _ | .minus :: _ | .star :: _ | .slash :: _
  | .caret :: _ | .openParen :: _ | .bar :: _ => exact .failure nofun

private theorem ample_endBars (hlimit : bound ≤ limit) (hle : a.height + ts.length ≤ bound) :
    Ample bound (endBars limit a ts) := by
  match ts with
  | .bar :: ts =>
    rw [List.length_cons] at hle
    exact ample_limited (by omega) (by omega) hlimit
  | [] | .number _ :: _ | .letter _ :: _ | .plus :: _ | .minus :: _ | .star :: _ | .slash :: _
  | .caret :: _ | .openParen :: _ | .closeParen :: _ => exact .failure nofun

/-- An operand takes a token before any factor inside it. -/
theorem unhindered_primary (h : Unhindered limit n factor) :
    Unhindered limit (n + 1) (primary limit factor) := by
  intro ts hn hlimit
  have hexpr := unhindered_expr h
  match ts with
  | .openParen :: ts =>
    refine (hexpr ts (Nat.lt_of_succ_lt_succ hn) (Nat.le_of_succ_le hlimit)).bind (k := endParens)
      fun a rest ha hle ↦ ?_
    exact ample_endParens ha (Nat.le_succ_of_le hle)
  | .bar :: ts =>
    refine (hexpr ts (Nat.lt_of_succ_lt_succ hn) (Nat.le_of_succ_le hlimit)).bind
      (k := endBars limit) fun a rest ha hle ↦ ?_
    exact ample_endBars hlimit (Nat.le_succ_of_le hle)
  | .letter v :: ts | .number c :: ts =>
    exact .value Nat.one_pos (Nat.le_of_eq (Nat.add_comm 1 ts.length))
  | [] | .plus :: _ | .minus :: _ | .star :: _ | .slash :: _ | .caret :: _ | .closeParen :: _ =>
    exact .failure nofun

private theorem unhindered_signed (h : Unhindered limit n factor) :
    Unhindered limit (n + 1) (signed limit factor) := by
  intro ts hn hlimit
  have hprimary := unhindered_primary h
  match ts with
  | .minus :: ts =>
    refine (hprimary ts (Nat.lt_of_succ_lt hn) (Nat.le_of_succ_le hlimit)).bind
      (k := Node.unary limit .neg) fun a rest ha hle ↦ ?_
    rw [List.length_cons]
    exact ample_limited (by omega) (by omega) hlimit
  | [] | .number _ :: _ | .letter _ :: _ | .plus :: _ | .star :: _ | .slash :: _ | .caret :: _
  | .openParen :: _ | .closeParen :: _ | .bar :: _ => exact hprimary _ hn hlimit

private theorem ample_exponent (h : Unhindered limit n factor) (hn : bound ≤ n)
    (hlimit : bound ≤ limit)
    (ha : 0 < a.height) (hle : a.height + ts.length ≤ bound) :
    Ample bound (exponent limit factor a ts) := by
  match ts with
  | .caret :: ts => exact ample_andThen h hn hlimit ha (Nat.le_of_succ_le hle)
  | [] | .number _ :: _ | .letter _ :: _ | .plus :: _ | .minus :: _ | .star :: _ | .slash :: _
  | .openParen :: _ | .closeParen :: _ | .bar :: _ => exact .value ha hle

/-- **A factor meets no limit** if its budget exceeds the number of the tokens. By induction on the
budget. -/
theorem unhindered_factor (n : Nat) : Unhindered limit n (Rule.factor limit n : Rule α) := by
  induction n with
  | zero => exact fun ts hn ↦ absurd hn (Nat.not_lt_zero _)
  | succ n ih =>
    intro ts hn hlimit
    exact (unhindered_signed ih ts hn hlimit).bind (k := exponent limit (Rule.factor limit n))
      fun a rest ↦ ample_exponent ih (Nat.le_of_lt_succ hn) hlimit

end Rule

end ImplicitPlot
