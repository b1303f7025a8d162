import ImplicitPlot.Decimal.Layout
import ImplicitPlot.Decimal.Literal
import ImplicitPlot.Proofs.Scalar.Binary64

/-!
# Written numbers

A finite number without a sign is written as a plain literal: digits, and perhaps a point with more
digits, but no exponent (`exists_plain_of_isUnsigned`). Such a literal is taken off the front of a
text whole, if the text goes on with a character that no number has (`Literal.scan_append`). So if
the text of a number is read back as the number when it stands alone, then it is read back within a
longer text as well.
-/

namespace ImplicitPlot.Decimal

/-! ## Plain literals -/

theorem takeWhile_dropWhile_append {p : Char → Bool} {ds rest : List Char}
    (hds : ∀ c ∈ ds, p c = true) (hrest : ∀ c ∈ rest.head?, p c = false) :
    (ds ++ rest).takeWhile p = ds ∧ (ds ++ rest).dropWhile p = rest := by
  rw [List.takeWhile_append_of_pos hds, List.dropWhile_append_of_pos hds]
  match rest with
  | [] => exact ⟨List.append_nil ds, rfl⟩
  | c :: cs =>
    have hc : ¬p c = true := by
      rw [hrest c rfl]
      nofun
    rw [List.takeWhile_cons_of_neg hc, List.dropWhile_cons_of_neg hc]
    exact ⟨List.append_nil ds, rfl⟩

namespace Literal

/-- Digits, at least one of them before the point, and no exponent. -/
structure IsPlain (l : Literal) : Prop where
  whole_ne_nil : l.whole ≠ []
  whole_digits : ∀ c ∈ l.whole, c.isDigit = true
  fraction_digits : ∀ c ∈ l.fraction.getD [], c.isDigit = true
  exponent_eq : l.exponent = none

/-- The character may stand in a number. -/
def isNumeric (c : Char) : Bool := c.isDigit || c = '.' || c = 'e' || c = 'E'

variable {l : Literal} {rest : List Char}

/-- A plain literal starts with a digit. -/
theorem IsPlain.exists_text_eq (h : l.IsPlain) : ∃ d ds, d.isDigit = true ∧ l.text = d :: ds := by
  obtain ⟨whole, fraction, exponent⟩ := l
  obtain ⟨d, ds, rfl⟩ := List.exists_cons_of_ne_nil h.whole_ne_nil
  exact ⟨d, _, h.whole_digits d List.mem_cons_self, rfl⟩

theorem scanFraction_of_head? (h : rest.head? ≠ some '.') : scanFraction rest = (none, rest) := by
  rw [scanFraction]
  rintro cs rfl
  exact h rfl

private theorem scanExponent_of_head? (he : rest.head? ≠ some 'e') (hE : rest.head? ≠ some 'E') :
    scanExponent rest = (none, rest) := by
  match rest with
  | [] => rfl
  | c :: cs =>
    refine if_neg ?_
    rintro (rfl | rfl)
    · exact he rfl
    · exact hE rfl

/-- **A plain literal is taken off the front of a text**, in front of a character that no number
has. -/
theorem scan_append (h : l.IsPlain) (hrest : ∀ c ∈ rest.head?, isNumeric c = false) :
    scan (l.text ++ rest) = some (l, rest) := by
  obtain ⟨whole, fraction, exponent⟩ := l
  obtain ⟨hne, hwhole, hfraction, rfl⟩ := h
  have hne' : whole.isEmpty = false := by
    rw [List.isEmpty_eq_false_iff]
    exact hne
  have hdigit : ∀ c ∈ rest.head?, c.isDigit = false := by
    intro c hc
    have hnumeric := hrest c hc
    simp only [isNumeric, Bool.or_eq_false_iff] at hnumeric
    exact hnumeric.1.1.1
  have hother {c : Char} (hc : isNumeric c = true) : rest.head? ≠ some c := by
    intro heq
    rw [hrest c heq] at hc
    cases hc
  have hexponent : scanExponent rest = (none, rest) :=
    scanExponent_of_head? (hother rfl) (hother rfl)
  cases fraction with
  | none =>
    obtain ⟨htake, hdrop⟩ := takeWhile_dropWhile_append hwhole hdigit
    simp only [scan, text, List.append_nil, htake, hdrop, scanFraction_of_head? (hother rfl),
      hexponent, hne', Bool.false_and, Bool.false_eq_true, if_false]
  | some ds =>
    have hpoint : ∀ c ∈ ('.' :: (ds ++ rest)).head?, c.isDigit = false := by
      rintro c ⟨⟩
      rfl
    obtain ⟨htake, hdrop⟩ := takeWhile_dropWhile_append hwhole hpoint
    obtain ⟨htake', hdrop'⟩ := takeWhile_dropWhile_append hfraction hdigit
    simp only [Option.getD_some] at htake' hdrop'
    simp only [scan, text, List.append_nil, List.append_assoc, List.cons_append, htake, hdrop,
      scanFraction, htake', hdrop', hexponent, hne', Bool.false_and, Bool.false_eq_true, if_false]

end Literal

/-! ## The text of a number -/

/-- The number is finite, and its sign bit is clear. -/
def IsUnsigned (c : Float) : Prop := Scalar.IsFinite c ∧ c.toBits.toNat < Nat.pow 2 63

instance (c : Float) : Decidable (IsUnsigned c) := inferInstanceAs (Decidable (_ ∧ _))

/-- The text of the number is read back as the number. -/
def IsReadBack (c : Float) : Prop := read (text c).toList = some c

instance (c : Float) : Decidable (IsReadBack c) := inferInstanceAs (Decidable (_ = _))

private theorem isDigit_of_mem_significant {s : Scaled} {c : Char} (hc : c ∈ s.significant.digits) :
    c.isDigit = true := by
  refine Nat.isDigit_of_mem_toDigits (b := 10) (n := s.digits) (by decide) (by decide) ?_
  have hmem := (List.dropWhile_sublist _).mem (List.mem_reverse.mp hc)
  exact List.mem_reverse.mp hmem

theorem isDigit_of_mem_replicate {n : Nat} {c : Char} (hc : c ∈ List.replicate n '0') :
    c.isDigit = true := by
  rw [List.eq_of_mem_replicate hc]
  rfl

private theorem exists_plain_of_positional {s : Significant}
    (hs : ∀ c ∈ s.digits, c.isDigit = true) :
    ∃ l : Literal, l.IsPlain ∧ l.text = s.positional.toList := by
  have hzeros {n : Nat} {ds : List Char} (hds : ∀ c ∈ ds, c ∈ s.digits ∨ c ∈ List.replicate n '0') :
      ∀ c ∈ ds, c.isDigit = true := fun c hc ↦ (hds c hc).elim (hs c) isDigit_of_mem_replicate
  rw [Significant.positional]
  dsimp only
  split
  next =>
    refine ⟨⟨['0'], some (List.replicate (-s.point).toNat '0' ++ s.digits), none⟩,
      ⟨nofun, fun c hc ↦ isDigit_of_mem_replicate (n := 1) hc,
        hzeros fun c hc ↦ (List.mem_append.mp hc).symm, rfl⟩, ?_⟩
    simp only [Literal.text, List.append_nil, String.toList_append, String.toList_ofList]
    rfl
  next hpos =>
    split
    next hlength =>
      refine ⟨⟨s.digits ++ List.replicate (s.point.toNat - s.digits.length) '0', none, none⟩,
        ⟨fun hnil ↦ ?_, hzeros fun c hc ↦ List.mem_append.mp hc, nofun, rfl⟩, ?_⟩
      · have hzero := congrArg List.length hnil
        rw [List.length_append, List.length_replicate] at hzero
        simp only [List.length_nil] at hzero
        omega
      · rw [String.toList_ofList, Literal.text]
        simp only [List.append_nil]
    next hlength =>
      refine ⟨⟨s.digits.take s.point.toNat, some (s.digits.drop s.point.toNat), none⟩,
        ⟨fun hnil ↦ ?_, fun c hc ↦ hs c (List.mem_of_mem_take hc),
          fun c hc ↦ hs c (List.mem_of_mem_drop hc), rfl⟩, ?_⟩
      · have hzero := congrArg List.length hnil
        rw [List.length_take] at hzero
        simp only [List.length_nil] at hzero
        omega
      · simp [Literal.text, String.toList_append]

theorem exists_plain_of_isUnsigned {c : Float} (hc : IsUnsigned c) :
    ∃ l : Literal, l.IsPlain ∧ l.text = (text c).toList := by
  have hfinite : (Binary64.unpacked c).isFinite = true := Binary64.isFinite_iff.mp hc.1
  have hnumber : c.isNaN = false := by
    change (Binary64.unpacked c).isNaN = false
    cases h : Binary64.unpacked c with
    | notANumber =>
      rw [h] at hfinite
      cases hfinite
    | infinity | zero | finite => rfl
  have hinf : c.abs.isInf = false := by
    change (Binary64.unpacked c.abs).isInf = false
    rw [Binary64.unpacked_abs]
    cases h : Binary64.unpacked c with
    | infinity =>
      rw [h] at hfinite
      cases hfinite
    | notANumber | zero | finite => rfl
  have hsign : (if c.toBits.toNat < Nat.pow 2 63 then "" else "-") = "" := if_pos hc.2
  rw [text, layOut]
  simp only [hnumber, hinf, hsign, Bool.false_eq_true, if_false, String.empty_append]
  split
  · have hzero : ∀ c ∈ ['0'], c.isDigit = true := fun c ↦ isDigit_of_mem_replicate (n := 1)
    exact ⟨⟨['0'], none, none⟩, ⟨nofun, hzero, nofun, rfl⟩, rfl⟩
  · apply exists_plain_of_positional
    intro d hd
    exact isDigit_of_mem_significant hd

theorem not_isUpper_of_isDigit {d : Char} (h : d.isDigit = true) : ¬d.isUpper = true := by
  rw [Char.isDigit_iff_toNat] at h
  rw [Char.isUpper, decide_eq_true_iff]
  intro hupper
  exact absurd (Nat.le_trans (UInt32.le_iff_toNat_le.mp hupper.1) h.2) (by decide)

theorem read_of_numeric {d : Char} (ds : List Char) (hd : (d.isDigit || d = '.') = true) :
    read (d :: ds) = match Literal.scan (d :: ds) with
      | some (l, []) => some l.value
      | _ => none := by
  have hsign : scanSign (d :: ds) = (none, d :: ds) := by
    rw [scanSign]
    · rintro cs ⟨⟩
      cases hd
    · rintro cs ⟨⟩
      cases hd
  -- The words that are read as numbers start with letters.
  have hword {w : String} (hw : String.ofList ((d :: ds).map Char.toLower) = w) {c : Char}
      (hc : c ∈ w.toList.head?) : (c.isDigit || c = '.') = true := by
    have hlower : d.toLower = d := by
      rcases Bool.or_eq_true_iff.mp hd with hdigit | hpoint
      · exact Char.toLower_eq_of_not_isUpper (not_isUpper_of_isDigit hdigit)
      · rw [of_decide_eq_true hpoint]
        rfl
    rw [← hw, String.toList_ofList, List.map_cons, hlower] at hc
    cases hc
    exact hd
  rw [read, hsign]
  dsimp only
  rw [readMagnitude]
  split
  case h_1 hw => exact absurd (hword hw rfl) nofun
  case h_2 hw => exact absurd (hword hw rfl) nofun
  case h_3 hw => exact absurd (hword hw rfl) nofun
  case h_4 => rfl

theorem value_of_read {l : Literal} (hl : l.IsPlain) {c : Float} (h : read l.text = some c) :
    l.value = c := by
  obtain ⟨d, ds, hd, htext⟩ := hl.exists_text_eq
  have hscan : Literal.scan l.text = some (l, []) := by
    have hend : ∀ c ∈ ([] : List Char).head?, Literal.isNumeric c = false := nofun
    have hall := Literal.scan_append hl hend
    rwa [List.append_nil] at hall
  rw [htext, read_of_numeric ds (by rw [hd, Bool.true_or]), ← htext, hscan] at h
  exact Option.some.inj h

/-- **A number within a text** is the one that has been written, if it is read back when it stands
alone. -/
theorem exists_literal {c : Float} (hc : IsUnsigned c) (hread : IsReadBack c) :
    ∃ l : Literal, l.IsPlain ∧ l.text = (text c).toList ∧ l.value = c := by
  obtain ⟨l, hl, htext⟩ := exists_plain_of_isUnsigned hc
  refine ⟨l, hl, htext, value_of_read hl ?_⟩
  rw [htext]
  exact hread

end ImplicitPlot.Decimal
