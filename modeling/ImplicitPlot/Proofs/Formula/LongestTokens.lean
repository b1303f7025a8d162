import ImplicitPlot.Proofs.Formula.ByteScan
import ImplicitPlot.Proofs.Formula.Layout

/-!
# The longest tokens

What the lexemes of a text are, without the scanner. Each is a token at its place, written out by
the characters that it spans, and no token is written out by more of the text from there. The spans
stand one after another, and they hold all bytes but the blanks (`Lexeme.Covers`). If the text has
no lexemes, then this is so up to the position of the error, where there is no token and no blank.

From a position on this is proved by the way a text is scanned: a blank or a token before a part of
the text that is covered makes a longer part that is covered.
-/

namespace ImplicitPlot

open Decimal Text

/-- The characters write out the token: they are a literal, or the single character of it. -/
inductive Token.WrittenAs : Token Float → List Char → Prop
  | number {l : Literal} (hl : l.WellFormed) : WrittenAs (.number l.value) l.text
  | char {c : Char} {t : Token Float} (h : ofChar? c = some t) : WrittenAs t [c]

namespace Lexeme

/-- The token is written out by the characters that the lexeme spans, and no token is written out by
more characters from there. -/
def IsLongest (text : String) (l : Lexeme) : Prop :=
  ∃ ds cs, StandsAt text l.position (ds ++ cs) ∧ String.utf8Len ds = l.length ∧
    l.token.WrittenAs ds ∧
    ∀ (t : Token Float) (ds' : List Char), t.WrittenAs ds' → ds' <+: ds ++ cs →
      ds'.length ≤ ds.length

/-- The byte is in the span of the lexeme. -/
def Spans (l : Lexeme) (i : Nat) : Prop := l.position ≤ i ∧ i < l.position + l.length

/-- The lexemes are those between two places of a text: they stand there one after another, each is
the longest one at its position, and they span the bytes that are not blank. -/
structure Covers (text : String) (start stop : Nat) (ls : List Lexeme) : Prop where
  le : start ≤ stop
  within : ∀ l ∈ ls, start ≤ l.position ∧ 0 < l.length ∧ l.position + l.length ≤ stop
  apart : ls.Pairwise fun l l' ↦ l.position + l.length ≤ l'.position
  longest : ∀ l ∈ ls, l.IsLongest text
  spans : ∀ i, start ≤ i → i < stop →
    ((∃ l ∈ ls, l.Spans i) ↔ ∃ b ∈ (byteChars text)[i]?, isAsciiBlank b = false)

/-- No token starts at the place, nor is there a blank, or the end of the text. -/
def NoTokenAt (text : String) (position : Nat) : Prop :=
  ∃ c cs, StandsAt text position (c :: cs) ∧ isAsciiBlank c = false ∧
    ∀ (t : Token Float) (ds : List Char), t.WrittenAs ds → ¬ds <+: c :: cs

variable {text : String} {c : Char} {cs ds : List Char} {t : Token Float} {start stop : Nat}
  {ls : List Lexeme}

/-! ## Tokens at the front of a text -/

private theorem not_isLower_of_isDigit (h : c.isDigit = true) : ¬c.isLower = true := by
  rw [Char.isDigit_iff_toNat] at h
  simp only [Char.isLower, Bool.and_eq_true, decide_eq_true_eq]
  intro hlower
  exact absurd (Nat.le_trans (UInt32.le_iff_toNat_le.mp hlower.1) h.2) (by decide)

private theorem ofChar?_of_numeric (h : (c.isDigit || c = '.') = true) :
    Token.ofChar? c = (none : Option (Token Float)) := by
  rcases Bool.or_eq_true_iff.mp h with hdigit | hpoint
  · refine Option.eq_none_iff_forall_not_mem.mpr fun t ht ↦ ?_
    rcases Token.ofChar?_cases ht with hmem | ⟨v, -, hv⟩
    · simp only [List.mem_cons, Prod.mk.injEq, List.not_mem_nil, or_false] at hmem
      rcases hmem with ⟨rfl, -⟩ | ⟨rfl, -⟩ | ⟨rfl, -⟩ | ⟨rfl, -⟩ | ⟨rfl, -⟩ | ⟨rfl, -⟩ | ⟨rfl, -⟩ |
        ⟨rfl, -⟩ <;> cases hdigit
    · rw [Variable.ofChar?, if_neg (not_isLower_of_isDigit hdigit),
        if_neg (not_isUpper_of_isDigit hdigit)] at hv
      cases hv
  · rw [of_decide_eq_true hpoint]
    rfl

theorem numeric_of_isPrefix {l : Literal} (hl : l.WellFormed) (h : l.text <+: c :: cs) :
    (c.isDigit || c = '.') = true := by
  obtain ⟨d, ds, htext, hd⟩ := Literal.exists_text_eq hl
  rw [htext, List.cons_prefix_cons] at h
  rwa [← h.1]

/-- **The token that is scanned is the longest one.** -/
theorem longest_of_scan (h : scan c (ds ++ cs) = .ok (t, ds.length + 1)) :
    t.WrittenAs (c :: ds) ∧ ∀ (t' : Token Float) (ds' : List Char), t'.WrittenAs ds' →
      ds' <+: c :: ds ++ cs → ds'.length ≤ (c :: ds).length := by
  rcases scan_cases h with ⟨-, l, rest, hl, hends, hsplit, rfl, hlength⟩ |
    ⟨hnumeric, hchar, hlength⟩
  · have hsplit' : (c :: ds) ++ cs = l.text ++ rest := hsplit
    obtain ⟨htext, rfl⟩ := List.append_inj hsplit' hlength
    have hscan := Literal.scan_text_append hl hends
    refine ⟨htext ▸ .number hl, fun t' ds' hwritten hfront ↦ ?_⟩
    cases hwritten with
    | number hl' =>
      rw [htext] at hfront ⊢
      exact Literal.length_le_of_scan hscan hl' hfront
    | char => exact Nat.le_add_left 1 ds.length
  -- No number starts with the character, so only tokens of one character are to compare with.
  · obtain rfl : ds = [] := List.eq_nil_of_length_eq_zero (by omega)
    refine ⟨.char hchar, fun t' ds' hwritten hfront ↦ ?_⟩
    cases hwritten with
    | number hl' =>
      rw [numeric_of_isPrefix hl' hfront] at hnumeric
      cases hnumeric
    | char => exact Nat.le_refl 1

private theorem not_isPrefix_of_scan {expected : Expectation} (h : scan c cs = .error expected)
    (hwritten : t.WrittenAs ds) : ¬ds <+: c :: cs := by
  intro hfront
  rw [scan] at h
  cases hwritten with
  | number hl =>
    rw [if_pos (numeric_of_isPrefix hl hfront)] at h
    split at h
    · cases h
    next hnone => exact Literal.not_isPrefix_of_scan_eq_none hnone hl hfront
  | char hchar =>
    obtain ⟨rfl, -⟩ := List.cons_prefix_cons.mp hfront
    split at h
    next hnumeric => cases (ofChar?_of_numeric hnumeric).symm.trans hchar
    next =>
      rw [hchar] at h
      cases h

/-! ## Parts of a text that are covered -/

namespace Covers

theorem nil (text : String) (p : Nat) : Covers text p p [] where
  le := Nat.le_refl p
  within := nofun
  apart := .nil
  longest := nofun
  spans _ hstart hstop := absurd (Nat.lt_of_le_of_lt hstart hstop) (Nat.lt_irrefl p)

theorem blank {b : Char} (h : Covers text (start + 1) stop ls)
    (hb : (byteChars text)[start]? = some b) (hblank : isAsciiBlank b = true) :
    Covers text start stop ls where
  le := Nat.le_of_succ_le h.le
  within l hl := ⟨Nat.le_of_succ_le (h.within l hl).1, (h.within l hl).2⟩
  apart := h.apart
  longest := h.longest
  spans i hstart hstop := by
    rcases Nat.eq_or_lt_of_le hstart with rfl | hlt
    · constructor
      · rintro ⟨l, hl, hspans, -⟩
        exact absurd (Nat.lt_of_lt_of_le (h.within l hl).1 hspans) (Nat.lt_irrefl _)
      · rintro ⟨b', hb', hblank'⟩
        cases hb.symm.trans hb'
        rw [hblank] at hblank'
        cases hblank'
    · exact h.spans i hlt hstop

/-- A lexeme before a part that is covered. -/
theorem token {l : Lexeme} (h : Covers text (l.position + l.length) stop ls) (hpos : 0 < l.length)
    (hlongest : l.IsLongest text)
    (hbytes : ∀ i, l.Spans i → ∃ b ∈ (byteChars text)[i]?, isAsciiBlank b = false) :
    Covers text l.position stop (l :: ls) where
  le := Nat.le_trans (Nat.le_add_right _ _) h.le
  within := by
    intro m hm
    rcases List.mem_cons.mp hm with rfl | hm
    · exact ⟨Nat.le_refl _, hpos, h.le⟩
    · have hwithin := h.within m hm
      omega
  apart := .cons (fun m hm ↦ (h.within m hm).1) h.apart
  longest := List.forall_mem_cons.mpr ⟨hlongest, h.longest⟩
  spans i hstart hstop := by
    by_cases hi : i < l.position + l.length
    · exact iff_of_true ⟨l, List.mem_cons_self, hstart, hi⟩ (hbytes i ⟨hstart, hi⟩)
    · rw [← h.spans i (Nat.le_of_not_lt hi) hstop]
      constructor
      · rintro ⟨m, hm, hspans⟩
        rcases List.mem_cons.mp hm with rfl | hm
        · exact absurd hspans.2 hi
        · exact ⟨m, hm, hspans⟩
      · rintro ⟨m, hm, hspans⟩
        exact ⟨m, List.mem_cons_of_mem l hm, hspans⟩

end Covers

/-! ## Whole texts -/

private theorem chars_of_scan (hblank : isAsciiBlank c = false)
    (h : scan c (ds ++ cs) = .ok (t, ds.length + 1)) :
    ∀ d ∈ c :: ds, d.utf8Size = 1 ∧ isAsciiBlank d = false := by
  intro d hd
  rcases scan_cases h with ⟨-, l, rest, hl, -, hsplit, -, hlength⟩ | ⟨-, hchar, hlength⟩
  · have hsplit' : (c :: ds) ++ cs = l.text ++ rest := hsplit
    rw [(List.append_inj hsplit' hlength).1] at hd
    have hpart := Literal.isPart_of_mem_text hl hd
    refine ⟨Literal.utf8Size_of_isPart hpart, Bool.eq_false_iff.mpr fun hblank' ↦ ?_⟩
    rw [isPart_of_isAsciiBlank hblank'] at hpart
    cases hpart
  · obtain rfl : ds = [] := List.eq_nil_of_length_eq_zero (by omega)
    rw [List.mem_singleton.mp hd]
    exact ⟨Token.utf8Size_of_ofChar? hchar, hblank⟩

/-- What there is from a place on: lexemes up to the end, or lexemes up to an error. -/
def Describes (text : String) (start : Nat) : Except SyntaxError (List Lexeme) → Prop
  | .ok ls => Covers text start text.utf8ByteSize ls
  | .error e => NoTokenAt text e.position ∧ ∃ ls, Covers text start e.position ls

namespace Describes

variable {r : Except SyntaxError (List Lexeme)}

theorem blank {b : Char} (h : Describes text (start + 1) r) (hb : (byteChars text)[start]? = some b)
    (hblank : isAsciiBlank b = true) : Describes text start r := by
  match r, h with
  | .ok ls, h => exact Covers.blank h hb hblank
  | .error e, ⟨hnone, ls, h⟩ => exact ⟨hnone, ls, h.blank hb hblank⟩

theorem token {l : Lexeme} (h : Describes text (l.position + l.length) r) (hpos : 0 < l.length)
    (hlongest : l.IsLongest text)
    (hbytes : ∀ i, l.Spans i → ∃ b ∈ (byteChars text)[i]?, isAsciiBlank b = false) :
    Describes text l.position (r >>= fun ls ↦ .ok (l :: ls)) := by
  match r, h with
  | .ok ls, h => exact Covers.token h hpos hlongest hbytes
  | .error e, ⟨hnone, ls, h⟩ => exact ⟨hnone, l :: ls, h.token hpos hlongest hbytes⟩

end Describes

/-- **The scanner describes the text** from any place on. -/
theorem describes_listFrom {p : Nat} (h : StandsAt text p cs) :
    Describes text p (listFrom p 0 cs) := by
  induction cs using turn_induction generalizing p with
  | nil =>
    rw [listFrom, Describes, ← h.eq_end]
    exact .nil text p
  | blank c cs hblank ih =>
    have hsize := utf8Size_of_isAsciiBlank hblank
    have hrest := ih h.tail
    rw [hsize] at hrest
    rw [listFrom_blank hblank, hsize]
    exact hrest.blank (h.byte hsize) hblank
  | error c cs expected hblank hscan =>
    rw [listFrom_error hblank hscan]
    exact ⟨⟨c, cs, h, hblank, fun t ds ↦ not_isPrefix_of_scan hscan⟩, [], .nil text p⟩
  | token c ds cs t hblank hscan ih =>
    have hlen := utf8Len_of_scan hscan
    have hfront : StandsAt text p (c :: ds ++ cs) := h
    have hrest := ih hfront.behind
    rw [hlen] at hrest
    rw [listFrom_token hblank hscan]
    obtain ⟨hwritten, hlongest⟩ := longest_of_scan hscan
    have hchars := chars_of_scan hblank hscan
    refine Describes.token (l := ⟨p, ds.length + 1, t⟩) hrest (Nat.succ_pos _) ?_ fun i hi ↦ ?_
    · exact ⟨c :: ds, cs, hfront, hlen, hwritten, hlongest⟩
    · obtain ⟨b, hb, hmem⟩ := hfront.exists_byte (fun d hd ↦ (hchars d hd).1) hi.1 hi.2
      exact ⟨b, hb, (hchars b hmem).2⟩

/-- **The scanner is safe and takes the longest tokens.** A scanner of bytes comes to an end on
every text, after one turn for each character at most, without a cut outside the text or within a
character, and finds the same. If there are lexemes, then these stand one after another and span
exactly the bytes that are not blank, and each of them is the longest token at its position; a
number spans the longest literal there. If there is an error, then this is so of some lexemes up to
its position, where no token starts, and no blank stands. -/
theorem lexemes_longest (text : String) :
    listBytes? text (text.length + 1) 0 = some (list text) ∧
    match list text with
    | .ok ls => Covers text 0 text.utf8ByteSize ls
    | .error e => NoTokenAt text e.position ∧ ∃ ls, Covers text 0 e.position ls := by
  have hstart := StandsAt.start text
  exact ⟨listBytes?_eq hstart (Nat.le_refl _), describes_listFrom hstart⟩

/-- A letter that opens no exponent is a token, and so is the sign after it, but no token starts
with a byte of the next character. -/
theorem exponent_without_digits :
    list "2.5e+·" = .error ⟨5, .token⟩ ∧ listBytes? "2.5e+·" 7 0 = some (.error ⟨5, .token⟩) ∧
      NoTokenAt "2.5e+·" 5 ∧ (∃ ls, Covers "2.5e+·" 0 5 ls) ∧
      Covers "2.5e+" 0 5 [⟨0, 3, .number (Literal.value ⟨['2'], some ['5'], none⟩)⟩,
        ⟨3, 1, .letter ⟨4⟩⟩, ⟨4, 1, .plus⟩] := by
  have herror : list "2.5e+·" = .error ⟨5, .token⟩ := rfl
  obtain ⟨hbytes, hnone, hcovers⟩ := herror ▸ lexemes_longest "2.5e+·"
  exact ⟨herror, hbytes, hnone, hcovers, (lexemes_longest "2.5e+").2⟩

end Lexeme

end ImplicitPlot
