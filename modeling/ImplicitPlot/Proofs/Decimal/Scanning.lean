import ImplicitPlot.Proofs.Decimal.Written

/-!
# Taking literals off texts

What the scanner takes off the front of a text is a literal, and the text goes on after it in a way
that the literal cannot: not with another digit, not with a point if the literal might still have
one, and not with an exponent if it has none (`Literal.Ends`). These two conditions determine the
literal, `Literal.scan_eq_some_iff`. So a text may be replaced behind a literal, as long as nothing
comes to stand there that the literal could go on with.
-/

namespace ImplicitPlot.Decimal

variable {cs rest : List Char}

/-- The text does not start with a digit. -/
def NoDigitAhead (cs : List Char) : Prop := ∀ c ∈ cs.head?, c.isDigit = false

/-! ## Exponents -/

/-- A letter, perhaps a sign, and digits. -/
structure Exponent.WellFormed (e : Exponent) : Prop where
  mark_eq : e.mark = 'e' ∨ e.mark = 'E'
  sign_eq : ∀ s ∈ e.sign, s = '+' ∨ s = '-'
  digits_ne_nil : e.digits ≠ []
  digits : ∀ c ∈ e.digits, c.isDigit = true

/-- The text starts with an exponent. -/
def OpensExponent (cs : List Char) : Prop :=
  ∃ (e : Exponent) (rest : List Char), e.WellFormed ∧ cs = e.text ++ rest

theorem scanSign_append (cs : List Char) : (scanSign cs).1.toList ++ (scanSign cs).2 = cs := by
  rw [scanSign.eq_def]
  split <;> rfl

theorem sign_eq_of_scanSign (cs : List Char) : ∀ s ∈ (scanSign cs).1, s = '+' ∨ s = '-' := by
  rw [scanSign.eq_def]
  split
  · rintro s ⟨⟩
    exact .inl rfl
  · rintro s ⟨⟩
    exact .inr rfl
  · nofun

theorem scanSign_of_digits {sign : Option Char} (hsign : ∀ s ∈ sign, s = '+' ∨ s = '-')
    {d : Char} (hd : d.isDigit = true) (cs : List Char) :
    scanSign (sign.toList ++ d :: cs) = (sign, d :: cs) := by
  cases sign with
  | some s => rcases hsign s rfl with rfl | rfl <;> rfl
  | none =>
    change scanSign (d :: cs) = (none, d :: cs)
    rw [scanSign]
    · rintro cs ⟨⟩
      cases hd
    · rintro cs ⟨⟩
      cases hd

theorem noDigitAhead_dropWhile (cs : List Char) : NoDigitAhead (cs.dropWhile Char.isDigit) := by
  intro c hc
  have hhead := List.head?_dropWhile_not Char.isDigit cs
  rwa [hc] at hhead

theorem scanExponent_append {e : Exponent} (he : e.WellFormed) (hrest : NoDigitAhead rest) :
    scanExponent (e.text ++ rest) = (some e, rest) := by
  obtain ⟨mark, sign, digits⟩ := e
  obtain ⟨hmark, hsign, hne, hdigits⟩ := he
  obtain ⟨htake, hdrop⟩ := takeWhile_dropWhile_append hdigits hrest
  obtain ⟨d, ds, rfl⟩ := List.exists_cons_of_ne_nil hne
  have hscan : scanSign (sign.toList ++ (d :: ds) ++ rest) = (sign, d :: ds ++ rest) := by
    rw [List.append_assoc]
    exact scanSign_of_digits hsign (hdigits d List.mem_cons_self) (ds ++ rest)
  rw [Exponent.text, List.cons_append, scanExponent, if_pos hmark, hscan]
  dsimp only
  rw [htake, hdrop]
  rfl

theorem scanExponent_cases (cs : List Char) :
    scanExponent cs = (none, cs) ∨ ∃ (e : Exponent) (rest : List Char), e.WellFormed ∧
      NoDigitAhead rest ∧ cs = e.text ++ rest ∧ scanExponent cs = (some e, rest) := by
  match cs with
  | [] => exact .inl rfl
  | c :: cs =>
    rw [scanExponent]
    split
    next hmark =>
      have hsplit := scanSign_append cs
      have hsign := sign_eq_of_scanSign cs
      generalize scanSign cs = signed at hsplit hsign ⊢
      obtain ⟨sign, rest⟩ := signed
      dsimp only at hsplit hsign ⊢
      split
      · exact .inl rfl
      next hdigits =>
        refine .inr ⟨⟨c, sign, rest.takeWhile Char.isDigit⟩, rest.dropWhile Char.isDigit,
          ⟨hmark, hsign, fun hnil ↦ hdigits (List.isEmpty_iff.mpr hnil),
            fun d hd ↦ List.mem_takeWhile_imp hd⟩, noDigitAhead_dropWhile rest, ?_, rfl⟩
        rw [Exponent.text, List.cons_append, List.append_assoc, List.takeWhile_append_dropWhile,
          hsplit]
    next => exact .inl rfl

theorem scanExponent_eq_none_iff : scanExponent cs = (none, cs) ↔ ¬OpensExponent cs := by
  constructor
  · rintro hnone ⟨e, rest, he, rfl⟩
    -- What is taken off ends where the digits do.
    have hsplit : e.text ++ rest
        = (⟨e.mark, e.sign, e.digits ++ rest.takeWhile Char.isDigit⟩ : Exponent).text
          ++ rest.dropWhile Char.isDigit := by
      simp only [Exponent.text, List.cons_append, List.append_assoc,
        List.takeWhile_append_dropWhile]
    have hwell : (⟨e.mark, e.sign, e.digits ++ rest.takeWhile Char.isDigit⟩ :
        Exponent).WellFormed := by
      refine ⟨he.mark_eq, he.sign_eq,
        fun hnil ↦ he.digits_ne_nil (List.append_eq_nil_iff.mp hnil).1, fun c hc ↦ ?_⟩
      rcases List.mem_append.mp hc with hc | hc
      · exact he.digits c hc
      · exact List.mem_takeWhile_imp hc
    rw [hsplit, scanExponent_append hwell (noDigitAhead_dropWhile rest)] at hnone
    cases hnone
  · intro hnot
    rcases scanExponent_cases cs with hnone | ⟨e, rest, he, -, hcs, -⟩
    · exact hnone
    · exact absurd ⟨e, rest, he, hcs⟩ hnot

/-- The characters of an exponent, if there is one. -/
def exponentText : Option Exponent → List Char
  | none => []
  | some e => e.text

/-- What is taken off as an exponent, if anything is, and what is left. -/
theorem exists_scanExponent (hcs : NoDigitAhead cs) :
    ∃ exponent rest, scanExponent cs = (exponent, rest) ∧ (∀ e ∈ exponent, e.WellFormed) ∧
      cs = exponentText exponent ++ rest ∧ NoDigitAhead rest ∧
      (exponent = none → rest = cs ∧ ¬OpensExponent rest) := by
  rcases scanExponent_cases cs with hnone | ⟨e, rest, he, hrest, hsplit, hsome⟩
  · exact ⟨none, cs, hnone, nofun, rfl, hcs, fun _ ↦ ⟨rfl, scanExponent_eq_none_iff.mp hnone⟩⟩
  · exact ⟨some e, rest, hsome, by rintro e ⟨⟩; exact he, hsplit, hrest, nofun⟩

/-! ## Literals -/

namespace Literal

/-- Digits, perhaps with a point among them, and perhaps an exponent. -/
structure WellFormed (l : Literal) : Prop where
  whole_digits : ∀ c ∈ l.whole, c.isDigit = true
  fraction_digits : ∀ c ∈ l.fraction.getD [], c.isDigit = true
  digits_ne_nil : l.whole ++ l.fraction.getD [] ≠ []
  exponent : ∀ e ∈ l.exponent, e.WellFormed

/-- The literal cannot go on with the text. -/
structure Ends (l : Literal) (rest : List Char) : Prop where
  digit : NoDigitAhead rest
  point : l.fraction = none → l.exponent = none → rest.head? ≠ some '.'
  exponent : l.exponent = none → ¬OpensExponent rest

variable {l : Literal}

theorem scanFraction_cases (cs : List Char) :
    (cs.head? ≠ some '.' ∧ scanFraction cs = (none, cs)) ∨
      ∃ ds rest, (∀ c ∈ ds, c.isDigit = true) ∧ NoDigitAhead rest ∧ cs = '.' :: (ds ++ rest) ∧
        scanFraction cs = (some ds, rest) := by
  by_cases hpoint : cs.head? = some '.'
  · obtain ⟨cs, rfl⟩ := List.head?_eq_some_iff.mp hpoint
    refine .inr ⟨cs.takeWhile Char.isDigit, cs.dropWhile Char.isDigit,
      fun c hc ↦ List.mem_takeWhile_imp hc, noDigitAhead_dropWhile cs, ?_, rfl⟩
    rw [List.takeWhile_append_dropWhile]
  · exact .inl ⟨hpoint, scanFraction_of_head? hpoint⟩

/-- **What is taken off a text** is a literal that cannot go on with what is left. -/
theorem of_scan_eq_some (h : scan cs = some (l, rest)) :
    l.WellFormed ∧ cs = l.text ++ rest ∧ l.Ends rest := by
  rw [scan] at h
  have hwhole : cs = cs.takeWhile Char.isDigit ++ cs.dropWhile Char.isDigit :=
    List.takeWhile_append_dropWhile.symm
  have hdigits : ∀ c ∈ cs.takeWhile Char.isDigit, c.isDigit = true :=
    fun c hc ↦ List.mem_takeWhile_imp hc
  have hahead := noDigitAhead_dropWhile cs
  generalize cs.takeWhile Char.isDigit = whole at hwhole hdigits h
  generalize cs.dropWhile Char.isDigit = tail at hwhole hahead h
  subst hwhole
  rcases scanFraction_cases tail with ⟨hpoint, hfraction⟩ | ⟨ds, mid, hds, hmid, rfl, hfraction⟩
  · obtain ⟨exponent, rest', hscan, hexponent, rfl, hrest', hnone⟩ := exists_scanExponent hahead
    rw [hfraction] at h
    dsimp only at h
    rw [hscan] at h
    split at h
    · cases h
    next hempty =>
      cases h
      refine ⟨⟨hdigits, by rintro _ ⟨⟩, fun hnil ↦ hempty (by simpa using hnil), hexponent⟩, ?_,
        ⟨hrest', fun _ hexp ↦ (hnone hexp).1 ▸ hpoint, fun hexp ↦ (hnone hexp).2⟩⟩
      simp only [text, List.append_nil, List.append_assoc]
      rfl
  · obtain ⟨exponent, rest', hscan, hexponent, rfl, hrest', hnone⟩ := exists_scanExponent hmid
    rw [hfraction] at h
    dsimp only at h
    rw [hscan] at h
    split at h
    · cases h
    next hempty =>
      cases h
      refine ⟨⟨hdigits, hds, fun hnil ↦ hempty (by simpa using hnil), hexponent⟩, ?_,
        ⟨hrest', by rintro ⟨⟩, fun hexp ↦ (hnone hexp).2⟩⟩
      simp only [text, List.cons_append, List.append_assoc]
      rfl

private theorem scanExponent_exponentText (hl : l.WellFormed) (hrest : l.Ends rest) :
    scanExponent (exponentText l.exponent ++ rest) = (l.exponent, rest) ∧
      NoDigitAhead (exponentText l.exponent ++ rest) ∧
      (l.fraction = none → (exponentText l.exponent ++ rest).head? ≠ some '.') := by
  obtain ⟨whole, fraction, exponent⟩ := l
  cases exponent with
  | none =>
    exact ⟨scanExponent_eq_none_iff.mpr (hrest.exponent rfl), hrest.digit,
      fun h ↦ hrest.point h rfl⟩
  | some e =>
    have he := hl.exponent e rfl
    refine ⟨scanExponent_append he hrest.digit, ?_, fun _ hhead ↦ ?_⟩
    · rintro c ⟨⟩
      rcases he.mark_eq with hmark | hmark <;> rw [hmark] <;> rfl
    · have hmark := Option.some.inj hhead
      rcases he.mark_eq with h | h <;> rw [h] at hmark <;> cases hmark

/-- **A literal is taken off a text** with which it cannot go on. -/
theorem scan_text_append (hl : l.WellFormed) (hrest : l.Ends rest) :
    scan (l.text ++ rest) = some (l, rest) := by
  obtain ⟨hscan, hahead, hnopoint⟩ := scanExponent_exponentText hl hrest
  have hempty : (l.whole.isEmpty && (l.fraction.getD []).isEmpty) = false := by
    rw [Bool.and_eq_false_iff, List.isEmpty_eq_false_iff, List.isEmpty_eq_false_iff]
    by_contra hboth
    simp only [not_or, not_not] at hboth
    exact hl.digits_ne_nil (by rw [hboth.1, hboth.2]; rfl)
  obtain ⟨whole, fraction, exponent⟩ := l
  rw [text]
  change scan (whole ++ _ ++ exponentText exponent ++ rest) = _
  rw [List.append_assoc, List.append_assoc]
  generalize exponentText exponent ++ rest = tail at hscan hahead hnopoint ⊢
  cases fraction with
  | none =>
    obtain ⟨htake, hdrop⟩ := takeWhile_dropWhile_append hl.whole_digits hahead
    rw [List.nil_append, scan, htake, hdrop, scanFraction_of_head? (hnopoint rfl)]
    dsimp only
    rw [hempty, hscan]
    rfl
  | some ds =>
    have hstart : NoDigitAhead ('.' :: (ds ++ tail)) := by
      rintro c ⟨⟩
      rfl
    obtain ⟨htake, hdrop⟩ := takeWhile_dropWhile_append hl.whole_digits hstart
    obtain ⟨htake', hdrop'⟩ := takeWhile_dropWhile_append hl.fraction_digits hahead
    rw [Option.getD_some] at htake' hdrop'
    rw [List.cons_append, scan, htake, hdrop, scanFraction, htake', hdrop']
    dsimp only
    rw [hempty, hscan]
    rfl

/-- A literal is taken off a text if the text starts with it and it cannot go on from there. -/
theorem scan_eq_some_iff :
    scan cs = some (l, rest) ↔ l.WellFormed ∧ cs = l.text ++ rest ∧ l.Ends rest := by
  constructor
  · exact of_scan_eq_some
  · rintro ⟨hl, rfl, hrest⟩
    exact scan_text_append hl hrest

/-! ## The characters of a literal -/

/-- The character may stand in a literal. -/
def isPart (c : Char) : Bool := isNumeric c || c = '+' || c = '-'

theorem isPart_of_isDigit {c : Char} (h : c.isDigit = true) : isPart c = true := by
  simp [isPart, isNumeric, h]

theorem isPart_of_mem_exponent {e : Exponent} (he : e.WellFormed) {c : Char} (hc : c ∈ e.text) :
    isPart c = true := by
  rcases List.mem_cons.mp hc with rfl | hc
  · rcases he.mark_eq with h | h <;> rw [h] <;> rfl
  rcases List.mem_append.mp hc with hc | hc
  · rcases he.sign_eq c (Option.mem_toList.mp hc) with rfl | rfl <;> rfl
  · exact isPart_of_isDigit (he.digits c hc)

theorem isPart_of_mem_text (hl : l.WellFormed) {c : Char} (hc : c ∈ l.text) : isPart c = true := by
  obtain ⟨whole, fraction, exponent⟩ := l
  rcases List.mem_append.mp hc with hc | hc
  · rcases List.mem_append.mp hc with hc | hc
    · exact isPart_of_isDigit (hl.whole_digits c hc)
    · cases fraction with
      | none => cases hc
      | some ds =>
        rcases List.mem_cons.mp hc with rfl | hc
        · rfl
        · exact isPart_of_isDigit (hl.fraction_digits c hc)
  · cases exponent with
    | none => cases hc
    | some e => exact isPart_of_mem_exponent (hl.exponent e rfl) hc

theorem text_ne_nil (hl : l.WellFormed) : l.text ≠ [] := by
  obtain ⟨whole, fraction, exponent⟩ := l
  intro hnil
  obtain ⟨hfirst, -⟩ := List.append_eq_nil_iff.mp hnil
  obtain ⟨hwhole, hfraction⟩ := List.append_eq_nil_iff.mp hfirst
  cases fraction with
  | none => exact hl.digits_ne_nil (by rw [hwhole]; rfl)
  | some ds => cases hfraction

/-- What follows a literal may be exchanged from some point on, for a text that does not start with
a character of literals. -/
theorem Ends.exchange {pre tail tail' : List Char} (h : l.Ends (pre ++ tail))
    (htail : ∀ c ∈ tail'.head?, isPart c = false) : l.Ends (pre ++ tail') := by
  have hhead {P : Char → Prop} (hP : ∀ c ∈ (pre ++ tail).head?, ¬P c)
      (hpart : ∀ c, P c → isPart c = true) : ∀ c ∈ (pre ++ tail').head?, ¬P c := by
    intro c hc hPc
    cases pre with
    | nil =>
      have hnot := htail c hc
      rw [hpart c hPc] at hnot
      cases hnot
    | cons p pre => exact hP c hc hPc
  refine ⟨fun c hc ↦ ?_, fun hfraction hexponent hpoint ↦ ?_, ?_⟩
  · refine Bool.eq_false_iff.mpr (hhead (P := fun c ↦ c.isDigit = true) (fun c hc ↦ ?_) ?_ c hc)
    · rw [h.digit c hc]
      nofun
    · exact fun c ↦ isPart_of_isDigit
  · refine hhead (P := (· = '.')) (fun c hc heq ↦ ?_) ?_ '.' hpoint rfl
    · exact h.point hfraction hexponent (heq ▸ hc)
    · rintro c rfl
      rfl
  · rintro hexponent ⟨e, rest, he, heq⟩
    -- All of the exponent stands before the point of exchange.
    refine h.exponent hexponent ?_
    rcases List.append_eq_append_iff.mp heq with ⟨as, htext, htail'⟩ | ⟨bs, rfl, -⟩
    · cases as with
      | nil =>
        rw [List.append_nil] at htext
        exact ⟨e, tail, he, by rw [htext]⟩
      | cons a as =>
        have hnot := htail a (by rw [htail']; rfl)
        rw [isPart_of_mem_exponent he (htext ▸ List.mem_append_right _ List.mem_cons_self)] at hnot
        cases hnot
    · exact ⟨e, bs ++ tail, he, List.append_assoc _ _ _⟩

end Literal

end ImplicitPlot.Decimal
