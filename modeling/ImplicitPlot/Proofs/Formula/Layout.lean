import ImplicitPlot.Proofs.Formula.Lexemes
import ImplicitPlot.Proofs.Formula.LetterCase
import ImplicitPlot.Proofs.Formula.ParserCompleteness

/-!
# Layout

Blanks may be inserted into a text anywhere but within a lexeme. The lexemes stay the same then, and
those behind the blanks move by the length of these, `Lexeme.MadeOf.insert`. That blanks separate
what they are inserted between is clear; what has to be seen is that they do not change how the
lexeme before them is read. Only a number depends on the text that follows it, and only on
characters that numbers have, of which a blank is none.

The parser reads the tokens without their positions, so a text with blanks inserted is read as the
one without, and an error moves with the lexeme at which it stands.
-/

namespace ImplicitPlot

open Decimal

/-- Where a position comes to be when a text of the given size is inserted at `start`. -/
def movedPosition (start size position : Nat) : Nat :=
  if position < start then position else position + size

theorem movedPosition_of_le {start size position : Nat} (h : start ≤ position) :
    movedPosition start size position = position + size :=
  if_neg (Nat.not_lt.mpr h)

@[simp] theorem movedPosition_zero (start position : Nat) :
    movedPosition start 0 position = position :=
  ite_self position

theorem Text.isPart_of_isAsciiBlank {c : Char} (h : isAsciiBlank c = true) :
    Literal.isPart c = false := by
  simp only [isAsciiBlank, Bool.or_eq_true, beq_iff_eq] at h
  rcases h with (((rfl | rfl) | rfl) | rfl) | rfl <;> rfl

namespace Lexeme

/-- The lexeme when a text of the given size is inserted at `start`. -/
def moved (start size : Nat) (l : Lexeme) : Lexeme :=
  { l with position := movedPosition start size l.position }

variable {c : Char} {cs ds left right blanks : List Char} {t : Token Float} {ls : List Lexeme}
  {p : Nat}

/-- A token stays the same if the text behind it is exchanged from some point on, for one that does
not start with a character of numbers. -/
theorem scan_exchange {pre tail tail' : List Char}
    (h : scan c (ds ++ (pre ++ tail)) = .ok (t, ds.length + 1))
    (htail : ∀ c ∈ tail'.head?, Literal.isPart c = false) :
    scan c (ds ++ (pre ++ tail')) = .ok (t, ds.length + 1) := by
  rcases scan_cases h with ⟨hnumeric, l, rest, hl, hends, hsplit, rfl, hlength⟩ |
    ⟨hnumeric, hc, hlength⟩
  · have hsplit' : (c :: ds) ++ (pre ++ tail) = l.text ++ rest := hsplit
    obtain ⟨htext, rfl⟩ := List.append_inj hsplit' hlength
    have hsplit'' : c :: (ds ++ (pre ++ tail')) = l.text ++ (pre ++ tail') := by
      rw [← htext, List.cons_append]
    rw [scan_number hl (hends.exchange htail) hnumeric hsplit'', hlength]
  · rw [scan_char hnumeric hc, hlength]

namespace MadeOf

/-- A text may stand further on. -/
theorem shift (h : MadeOf p cs ls) (size : Nat) :
    MadeOf (p + size) cs (ls.map fun l ↦ { l with position := l.position + size }) := by
  induction h with
  | nil p => exact .nil _
  | blank hblank _ ih =>
    refine .blank hblank ?_
    rwa [Nat.add_right_comm] at ih
  | token hblank hscan _ ih =>
    refine .token hblank hscan ?_
    rwa [Nat.add_right_comm] at ih

private theorem blanks_append (hblanks : ∀ c ∈ blanks, Text.isAsciiBlank c = true)
    (h : MadeOf (p + String.utf8Len blanks) cs ls) : MadeOf p (blanks ++ cs) ls := by
  induction blanks generalizing p with
  | nil => exact h
  | cons c blanks ih =>
    refine .blank (hblanks c List.mem_cons_self) (ih (fun d hd ↦ ?_) ?_)
    · exact hblanks d (List.mem_cons_of_mem _ hd)
    · rwa [String.utf8Len_cons, Nat.add_comm (String.utf8Len blanks), ← Nat.add_assoc] at h

theorem insert_before (hblanks : ∀ c ∈ blanks, Text.isAsciiBlank c = true) (h : MadeOf p cs ls) :
    MadeOf p (blanks ++ cs) (ls.map (moved p (String.utf8Len blanks))) := by
  have hmoved : ls.map (moved p (String.utf8Len blanks))
      = ls.map fun l ↦ { l with position := l.position + String.utf8Len blanks } := by
    refine List.map_congr_left fun l hl ↦ ?_
    rw [moved, movedPosition_of_le (h.bounds l hl).2.1]
  rw [hmoved]
  exact blanks_append hblanks (h.shift (String.utf8Len blanks))

theorem exists_append_of_le (h : left ++ right = ds ++ cs)
    (hle : String.utf8Len ds ≤ String.utf8Len left) :
    ∃ pre, left = ds ++ pre ∧ cs = pre ++ right := by
  rcases List.append_eq_append_iff.mp h with ⟨as, rfl, rfl⟩ | ⟨pre, rfl, rfl⟩
  · cases as with
    | nil => exact ⟨[], by simp, rfl⟩
    | cons a as =>
      have hpos : 0 < a.utf8Size := a.utf8Size_pos
      rw [String.utf8Len_append, String.utf8Len_cons] at hle
      omega
  · exact ⟨pre, rfl, rfl⟩

/-- **Blanks between lexemes** move those behind them, and change nothing else. By induction on what
the text is made up of, up to the blanks. -/
theorem insert (hne : blanks ≠ []) (hblanks : ∀ c ∈ blanks, Text.isAsciiBlank c = true)
    (h : MadeOf p (left ++ right) ls)
    (hbetween : ∀ l ∈ ls, l.position + l.length ≤ p + String.utf8Len left ∨
      p + String.utf8Len left ≤ l.position) :
    MadeOf p (left ++ (blanks ++ right))
      (ls.map (moved (p + String.utf8Len left) (String.utf8Len blanks))) := by
  generalize hcs : left ++ right = cs at h
  induction h generalizing left with
  | nil p =>
    obtain ⟨rfl, rfl⟩ := List.append_eq_nil_iff.mp hcs
    exact insert_before hblanks (.nil p)
  | @blank p _ cs ls hblank hrest ih =>
    cases left with
    | nil =>
      obtain rfl : right = _ :: cs := hcs
      exact insert_before hblanks (.blank hblank hrest)
    | cons c left =>
      obtain ⟨rfl, htail⟩ := List.cons.inj hcs
      rw [String.utf8Len_cons, Nat.add_comm (String.utf8Len left), ← Nat.add_assoc] at hbetween ⊢
      exact .blank hblank (ih hbetween htail)
  | @token p _ ds cs t ls hblank hscan hrest ih =>
    cases left with
    | nil =>
      obtain rfl : right = _ :: (ds ++ cs) := hcs
      exact insert_before hblanks (.token hblank hscan hrest)
    | cons c left =>
      obtain ⟨rfl, -⟩ := List.cons.inj hcs
      -- The blanks are behind the first character of the lexeme, so that they are behind all of it.
      have hsize := utf8Len_of_scan hscan
      have hfirst := hbetween _ List.mem_cons_self
      have hpos : 0 < String.utf8Len (c :: left) :=
        String.utf8Len_cons c left ▸ Nat.add_pos_right _ c.utf8Size_pos
      dsimp only at hfirst
      have hsplit : (c :: left) ++ right = (c :: ds) ++ cs := hcs
      obtain ⟨pre, hleft, rfl⟩ := exists_append_of_le hsplit (by omega)
      rw [hleft, String.utf8Len_append, hsize, ← Nat.add_assoc] at hbetween ⊢
      have hpart : ∀ c ∈ (blanks ++ right).head?, Literal.isPart c = false := by
        obtain ⟨b, bs, rfl⟩ := List.exists_cons_of_ne_nil hne
        rintro c ⟨⟩
        exact Text.isPart_of_isAsciiBlank (hblanks _ List.mem_cons_self)
      have hmoved : moved (p + (ds.length + 1) + String.utf8Len pre) (String.utf8Len blanks)
          ⟨p, ds.length + 1, t⟩ = ⟨p, ds.length + 1, t⟩ := by
        rw [moved, movedPosition, if_pos (by dsimp only; omega)]
      rw [List.append_assoc, List.cons_append, List.map_cons, hmoved]
      refine .token hblank (scan_exchange hscan hpart) (ih (fun l hl ↦ ?_) rfl)
      exact hbetween l (List.mem_cons_of_mem _ hl)

end MadeOf

private theorem list_insert {left blanks right : String} {lexemes : List Lexeme}
    (h : list (left ++ right) = .ok lexemes)
    (hbetween : ∀ l ∈ lexemes, l.position + l.length ≤ left.utf8ByteSize ∨
      left.utf8ByteSize ≤ l.position)
    (hblanks : ∀ c ∈ blanks.toList, Text.isAsciiBlank c = true) :
    list (left ++ blanks ++ right)
      = .ok (lexemes.map (moved left.utf8ByteSize blanks.utf8ByteSize)) := by
  have hmade := madeOf_of_list h
  rw [list, String.toList_append, String.toList_append, List.append_assoc]
  rw [String.toList_append] at hmade
  rw [utf8ByteSize_eq] at hbetween ⊢
  rw [utf8ByteSize_eq blanks]
  cases hne : blanks.toList with
  | nil =>
    have hmoved : moved (String.utf8Len left.toList) (String.utf8Len []) = id :=
      funext fun l ↦ by rw [moved, String.utf8Len_nil, movedPosition_zero]; rfl
    rw [hmoved, List.map_id]
    exact hmade.listFrom_eq
  | cons b bs =>
    rw [hne] at hblanks
    refine MadeOf.listFrom_eq ?_
    have hinsert := MadeOf.insert (List.cons_ne_nil b bs) hblanks hmade (by rwa [Nat.zero_add])
    rwa [Nat.zero_add] at hinsert

end Lexeme

theorem Failure.position_moved (f : Failure) (lexemes : List Lexeme) {start size endOfText : Nat}
    (h : start ≤ endOfText) :
    f.position (lexemes.map (Lexeme.moved start size)) (endOfText + size)
      = movedPosition start size (f.position lexemes endOfText) := by
  rw [position, position, List.length_map, List.getElem?_map]
  cases lexemes[lexemes.length - f.remaining]? with
  | none => exact (movedPosition_of_le h).symm
  | some l => rfl

namespace Expr

/-- **Letter case and layout do not matter.** Texts that are the same in lower case are read alike.
If a text has lexemes, and blanks are inserted at a place that is not within one of these, then the
lexemes behind the blanks move, and the text is read as before, with an error at the same lexeme, or
at the new end of the text. -/
theorem parse_ignores_case_and_layout :
    (∀ text text' : String, text.toList.map Char.toLower = text'.toList.map Char.toLower →
      parse text = parse text') ∧
    ∀ (left blanks right : String) (lexemes : List Lexeme),
      Lexeme.list (left ++ right) = .ok lexemes →
      (∀ l ∈ lexemes, l.position + l.length ≤ left.utf8ByteSize ∨
        left.utf8ByteSize ≤ l.position) →
      (∀ c ∈ blanks.toList, Text.isAsciiBlank c = true) →
      let moved := movedPosition left.utf8ByteSize blanks.utf8ByteSize
      moved (left ++ right).utf8ByteSize = (left ++ blanks ++ right).utf8ByteSize ∧
      Lexeme.list (left ++ blanks ++ right)
        = .ok (lexemes.map fun l ↦ { l with position := moved l.position }) ∧
      parse (left ++ blanks ++ right) = (parse (left ++ right)).mapError fun error ↦
        { error with position := moved error.position } := by
  refine ⟨fun text text' ↦ parse_eq_of_lower_eq, ?_⟩
  intro left blanks right lexemes hlexemes hbetween hblanks
  have hlist := Lexeme.list_insert hlexemes hbetween hblanks
  have hle : left.utf8ByteSize ≤ (left ++ right).utf8ByteSize := by
    rw [String.utf8ByteSize_append]
    exact Nat.le_add_right _ _
  have hend : (left ++ blanks ++ right).utf8ByteSize
      = (left ++ right).utf8ByteSize + blanks.utf8ByteSize := by
    rw [String.utf8ByteSize_append, String.utf8ByteSize_append, String.utf8ByteSize_append,
      Nat.add_right_comm]
  refine ⟨(movedPosition_of_le hle).trans hend.symm, hlist, ?_⟩
  have htokens : (lexemes.map (Lexeme.moved left.utf8ByteSize blanks.utf8ByteSize)).map (·.token)
      = lexemes.map (·.token) := by
    rw [List.map_map]
    rfl
  rw [parse_of_list hlist, parse_of_list hlexemes, htokens, hend]
  cases ofTokens (lexemes.map (·.token)) with
  | ok e => rfl
  | error f =>
    dsimp only
    rw [Failure.position_moved f lexemes hle]
    rfl

/-- A number, and a letter that could open an exponent: in either case, and with a line feed between
them. -/
theorem parse_number_before_letter :
    parse "2E*" = parse "2e*" ∧ parse "2e*" = .error ⟨3, .primary⟩ ∧
    parse ("2" ++ "\n" ++ "e*") = .error ⟨4, .primary⟩ := by
  obtain ⟨hcase, hlayout⟩ := parse_ignores_case_and_layout
  have hread : parse "2e*" = .error ⟨3, .primary⟩ := rfl
  obtain ⟨-, -, hmoved⟩ := hlayout "2" "\n" "e*"
    [⟨0, 1, .number (Literal.value ⟨['2'], none, none⟩)⟩, ⟨1, 1, .letter ⟨4⟩⟩, ⟨2, 1, .star⟩] rfl
    (List.forall_mem_cons.mpr ⟨.inl (by decide), List.forall_mem_cons.mpr ⟨.inr (by decide),
      List.forall_mem_cons.mpr ⟨.inr (by decide), nofun⟩⟩⟩)
    (List.forall_mem_singleton.mpr rfl)
  refine ⟨hcase "2E*" "2e*" (by decide), hread, ?_⟩
  rw [hmoved]
  rfl

end Expr

end ImplicitPlot
