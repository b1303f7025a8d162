import ImplicitPlot.Proofs.Decimal.Scanning

/-!
# The longest literal

A literal that can go on with the text behind it is the beginning of a longer one
(`Literal.exists_longer`). So at the front of a text where there is any literal, there is one that
cannot go on, and it is at least as long. That is the one which the scanner takes off; and where the
scanner takes none off, there is none.
-/

namespace ImplicitPlot.Decimal.Literal

variable {l l' : Literal} {cs rest : List Char}

private theorem exists_digit_longer {d : Char} (hl : l.WellFormed) (hd : d.isDigit = true) :
    ∃ l' : Literal, l'.WellFormed ∧ l'.text = l.text ++ [d] := by
  have hmem {ds : List Char} (hds : ∀ c ∈ ds, c.isDigit = true) : ∀ c ∈ ds ++ [d],
      c.isDigit = true := by
    intro c hc
    rcases List.mem_append.mp hc with hc | hc
    · exact hds c hc
    · rwa [List.mem_singleton.mp hc]
  obtain ⟨whole, fraction, exponent⟩ := l
  obtain ⟨hwhole, hfraction, hne, hexponent⟩ := hl
  -- The text of a literal ends with its last part, so that is where the digit goes.
  cases exponent with
  | some e =>
    have he := hexponent e rfl
    refine ⟨⟨whole, fraction, some ⟨e.mark, e.sign, e.digits ++ [d]⟩⟩,
      ⟨hwhole, hfraction, hne, ?_⟩, ?_⟩
    · rintro _ ⟨⟩
      exact ⟨he.mark_eq, he.sign_eq, List.concat_ne_nil d e.digits, hmem he.digits⟩
    · simp only [text, Exponent.text, List.append_assoc, List.cons_append]
  | none =>
    cases fraction with
    | some ds =>
      refine ⟨⟨whole, some (ds ++ [d]), none⟩, ⟨hwhole, hmem hfraction, ?_, hexponent⟩, ?_⟩
      · simp
      · simp only [text, List.append_assoc, List.cons_append, List.append_nil]
    | none =>
      refine ⟨⟨whole ++ [d], none, none⟩, ⟨hmem hwhole, hfraction, ?_, hexponent⟩, ?_⟩
      · simp
      · simp only [text, List.append_nil]

/-- **A literal that can go on** is the beginning of a longer one. -/
theorem exists_longer (hl : l.WellFormed) (h : ¬l.Ends rest) :
    ∃ (l' : Literal) (more rest' : List Char), l'.WellFormed ∧ more ≠ [] ∧
      l'.text = l.text ++ more ∧ rest = more ++ rest' := by
  by_cases hdigit : NoDigitAhead rest
  · obtain ⟨whole, fraction, exponent⟩ := l
    obtain ⟨hwhole, hfraction, hne, hexponent⟩ := hl
    by_cases hopens : exponent = none ∧ OpensExponent rest
    · obtain ⟨rfl, e, rest', he, rfl⟩ := hopens
      refine ⟨⟨whole, fraction, some e⟩, e.text, rest', ⟨hwhole, hfraction, hne, ?_⟩,
        List.cons_ne_nil _ _, ?_, rfl⟩
      · rintro _ ⟨⟩
        exact he
      · simp only [text, List.append_nil]
    by_cases hpoint : fraction = none ∧ exponent = none ∧ rest.head? = some '.'
    · obtain ⟨rfl, rfl, hhead⟩ := hpoint
      obtain ⟨rest', rfl⟩ := List.head?_eq_some_iff.mp hhead
      refine ⟨⟨whole, some [], none⟩, ['.'], rest', ⟨hwhole, hfraction, hne, hexponent⟩,
        List.cons_ne_nil _ _, ?_, rfl⟩
      simp only [text, List.append_nil]
    · exact absurd ⟨hdigit, fun hf he hhead ↦ hpoint ⟨hf, he, hhead⟩, fun he ho ↦ hopens ⟨he, ho⟩⟩ h
  · obtain ⟨d, hd, hdigit'⟩ : ∃ d ∈ rest.head?, d.isDigit = true := by
      by_contra hnone
      exact hdigit fun d hd ↦ Bool.eq_false_iff.mpr fun hdigit' ↦ hnone ⟨d, hd, hdigit'⟩
    obtain ⟨rest', rfl⟩ := List.head?_eq_some_iff.mp hd
    obtain ⟨l', hl', htext⟩ := exists_digit_longer hl hdigit'
    exact ⟨l', [d], rest', hl', List.cons_ne_nil _ _, htext, rfl⟩

/-- Where there is a literal, one that is at least as long is taken off. By induction on the length
of the text behind the literal. -/
theorem exists_scan_of_text_append (hl : l.WellFormed) (rest : List Char) :
    ∃ l' rest', scan (l.text ++ rest) = some (l', rest') ∧ l.text.length ≤ l'.text.length := by
  induction hlength : rest.length using Nat.strongRecOn generalizing l rest with
  | _ length ih =>
    by_cases hends : l.Ends rest
    · exact ⟨l, rest, scan_text_append hl hends, Nat.le_refl _⟩
    · obtain ⟨l', more, rest', hl', hmore, htext, rfl⟩ := exists_longer hl hends
      have hpos := List.length_pos_of_ne_nil hmore
      rw [List.length_append] at hlength
      obtain ⟨l'', rest'', hscan, hle⟩ := ih rest'.length (by omega) hl' rest' rfl
      rw [htext, List.append_assoc] at hscan
      rw [htext, List.length_append] at hle
      exact ⟨l'', rest'', hscan, by omega⟩

/-- **The literal that is taken off is the longest one.** -/
theorem length_le_of_scan (h : scan cs = some (l, rest)) (hl' : l'.WellFormed)
    (hfront : l'.text <+: cs) : l'.text.length ≤ l.text.length := by
  obtain ⟨rest', rfl⟩ := hfront
  obtain ⟨l'', rest'', hscan, hle⟩ := exists_scan_of_text_append hl' rest'
  cases h.symm.trans hscan
  exact hle

theorem not_isPrefix_of_scan_eq_none (h : scan cs = none) (hl : l.WellFormed) :
    ¬l.text <+: cs := by
  rintro ⟨rest, rfl⟩
  obtain ⟨l', rest', hscan, -⟩ := exists_scan_of_text_append hl rest
  cases h.symm.trans hscan

/-- A literal starts with a digit or the point. -/
theorem exists_text_eq (hl : l.WellFormed) :
    ∃ d ds, l.text = d :: ds ∧ (d.isDigit || d = '.') = true := by
  obtain ⟨whole, fraction, exponent⟩ := l
  obtain ⟨hwhole, -, hne, -⟩ := hl
  match whole, fraction with
  | d :: ds, fraction =>
    exact ⟨d, _, rfl, by rw [hwhole d List.mem_cons_self, Bool.true_or]⟩
  | [], some ds => exact ⟨'.', _, rfl, rfl⟩
  | [], none => exact absurd rfl hne

end ImplicitPlot.Decimal.Literal
