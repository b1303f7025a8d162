import ImplicitPlot.Proofs.Decimal.LongestLiteral
import ImplicitPlot.Proofs.Formula.Lexemes
import ImplicitPlot.Proofs.Text.Bytes

/-!
# Scanning byte by byte

A second scanner, which runs over the bytes of a text and does not know where its characters end. It
looks at single bytes, counts the digits in what it cuts off the bytes, and cuts the text of a
number out of the text. There is no answer if it cuts where that is not possible, or if it does not
come to an end within a given number of turns.

It has an answer on every text as soon as there is a turn for each character and one for the end:
the answer of the scanner of characters (`Lexeme.listBytes?_eq`). The two are in step: wherever a
turn starts, it starts between characters, and what has been cut off are ASCII characters.
-/

namespace ImplicitPlot

open Decimal Text

namespace Decimal

/-! ## The end of a number -/

/-- The number of digits at the front. -/
def digitCount (bytes : List Char) : Nat := (bytes.takeWhile Char.isDigit).length

/-- The end of the digits and of the point among them, and the number of digits. -/
def mantissa? (bytes : List Char) : Option (Nat × Nat) :=
  let whole := digitCount bytes
  if bytes[whole]? = some '.' then do
    let fraction := digitCount (← dropBytes? bytes (whole + 1))
    return (whole + 1 + fraction, whole + fraction)
  else some (whole, whole)

/-- The end of the exponent at a place, or the place itself if there is none. -/
def exponentEnd? (bytes : List Char) (start : Nat) : Option Nat :=
  if bytes[start]? = some 'e' ∨ bytes[start]? = some 'E' then do
    let sign := bytes[start + 1]?
    let digits := if sign = some '+' ∨ sign = some '-' then start + 1 + 1 else start + 1
    let exponent := digitCount (← dropBytes? bytes digits)
    return if 0 < exponent then digits + exponent else start
  else some start

/-- The number of bytes of the literal at the front, if there is one. -/
def literalLength? (bytes : List Char) : Option (Option Nat) := do
  let (stop, digits) ← mantissa? bytes
  if digits = 0 then return none
  else return some (← exponentEnd? bytes stop)

end Decimal

namespace Lexeme

/-- The lexemes from a byte on, if the scanner comes to an end within the turns that it has. A
blank, a token and the end take a turn each. -/
def listBytes? (text : String) : Nat → Nat → Option (Except SyntaxError (List Lexeme))
  | 0, _ => none
  | turns + 1, start =>
    match (byteChars text)[start]? with
    | none => some (.ok [])
    | some b =>
      if isAsciiBlank b then listBytes? text turns (start + 1)
      else if b.isDigit || b = '.' then do
        match ← literalLength? (← dropBytes? (byteChars text) start) with
        | none => return .error ⟨start, .number⟩
        | some length =>
          match Decimal.read (← slice? text start (start + length)).toList with
          | none => return .error ⟨start, .number⟩
          | some value =>
            let rest ← listBytes? text turns (start + length)
            return rest.map (⟨start, length, .number value⟩ :: ·)
      else
        match Token.ofChar? b with
        | none => some (.error ⟨start, .token⟩)
        | some t => do
          let rest ← listBytes? text turns (start + 1)
          return rest.map (⟨start, 1, t⟩ :: ·)

end Lexeme

namespace Decimal

variable {as cs rest : List Char} {l : Literal}

theorem utf8Size_of_isDigit {c : Char} (h : c.isDigit = true) : c.utf8Size = 1 :=
  Literal.utf8Size_of_isPart (Literal.isPart_of_isDigit h)

theorem digitCount_bytesOf (cs : List Char) :
    digitCount (bytesOf cs) = (cs.takeWhile Char.isDigit).length := by
  rw [digitCount, (takeWhile_dropWhile_bytesOf (fun _ ↦ utf8Size_of_isDigit) cs).1]

theorem scanSign_place (cs : List Char) (n : Nat) :
    (if (bytesOf cs).head? = some '+' ∨ (bytesOf cs).head? = some '-' then n + 1 else n)
      = n + (scanSign cs).1.toList.length := by
  simp only [head?_bytesOf (c := '+') rfl, head?_bytesOf (c := '-') rfl]
  by_cases h : cs.head? = some '+' ∨ cs.head? = some '-'
  · rw [if_pos h]
    rcases h with h | h
    · obtain ⟨ds, rfl⟩ := List.head?_eq_some_iff.mp h
      rfl
    · obtain ⟨ds, rfl⟩ := List.head?_eq_some_iff.mp h
      rfl
  · rw [if_neg h, scanSign]
    · rfl
    · rintro ds rfl
      exact h (.inl rfl)
    · rintro ds rfl
      exact h (.inr rfl)

theorem exponentEnd?_eq (as rest : List Char) :
    exponentEnd? (as ++ bytesOf rest) as.length
      = some (as.length + (exponentText (scanExponent rest).1).length) := by
  rw [exponentEnd?, getElem?_append_length]
  simp only [head?_bytesOf (c := 'e') rfl, head?_bytesOf (c := 'E') rfl]
  match rest with
  | [] => rfl
  | c :: cs =>
    rw [scanExponent]
    simp only [List.head?_cons, Option.some.injEq]
    by_cases hmark : c = 'e' ∨ c = 'E'
    · have hsize : c.utf8Size = 1 := by
        rcases hmark with rfl | rfl <;> rfl
      have hnext : (as ++ bytesOf (c :: cs))[as.length + 1]? = (bytesOf cs).head? := by
        rw [bytesOf_cons, bytesOf_singleton hsize, ← List.append_assoc,
          ← List.length_singleton (a := c), ← List.length_append, getElem?_append_length]
      have hsplit := scanSign_append cs
      have hsign := sign_eq_of_scanSign cs
      rw [if_pos hmark, if_pos hmark, hnext, scanSign_place]
      generalize scanSign cs = signed at hsplit hsign ⊢
      obtain ⟨sign, ds⟩ := signed
      dsimp only at hsplit hsign ⊢
      have hascii : ∀ s ∈ sign.toList, s.utf8Size = 1 := by
        intro s hs
        rcases hsign s (Option.mem_toList.mp hs) with rfl | rfl <;> rfl
      have hdrop : dropBytes? (as ++ bytesOf (c :: cs)) (as.length + 1 + sign.toList.length)
          = some (bytesOf ds) := by
        rw [bytesOf_cons, bytesOf_singleton hsize, ← hsplit, bytesOf_ascii_append hascii,
          ← List.append_assoc, ← List.append_assoc, ← List.length_singleton (a := c),
          ← List.length_append, ← List.length_append, dropBytes?_append]
      rw [hdrop, Option.bind_eq_bind, Option.bind_some, digitCount_bytesOf]
      generalize ds.takeWhile Char.isDigit = digits
      cases digits with
      | nil => rfl
      | cons d digits =>
        rw [if_pos (List.length_pos_of_ne_nil (List.cons_ne_nil d digits))]
        refine congrArg some ?_
        simp only [List.isEmpty_cons, Bool.false_eq_true, if_false, exponentText, Exponent.text,
          List.length_cons, List.length_append]
        omega
    · rw [if_neg hmark, if_neg hmark]
      rfl

/-- The characters of the digits behind a point, and of the point, if there is one. -/
def fractionText : Option (List Char) → List Char
  | none => []
  | some ds => '.' :: ds

/-- What is taken off the front of a text as a point and digits. -/
theorem of_scanFraction_eq {fraction : Option (List Char)}
    (h : scanFraction cs = (fraction, rest)) :
    cs = fractionText fraction ++ rest ∧ ∀ c ∈ fractionText fraction, c.utf8Size = 1 := by
  rcases Literal.scanFraction_cases cs with ⟨-, hscan⟩ | ⟨ds, rest, hds, -, rfl, hscan⟩
  · cases h.symm.trans hscan
    exact ⟨rfl, nofun⟩
  · cases h.symm.trans hscan
    refine ⟨rfl, fun c hc ↦ ?_⟩
    rcases List.mem_cons.mp hc with rfl | hc
    · rfl
    · exact utf8Size_of_isDigit (hds c hc)

theorem mantissa?_eq (cs : List Char) {whole : List Char} {fraction : Option (List Char)}
    (hwhole : cs.takeWhile Char.isDigit = whole)
    (hfraction : (scanFraction (cs.dropWhile Char.isDigit)).1 = fraction) :
    mantissa? (bytesOf cs) = some ((whole ++ fractionText fraction).length,
      (whole ++ fraction.getD []).length) := by
  have hsplit : cs = whole ++ cs.dropWhile Char.isDigit := by
    rw [← hwhole, List.takeWhile_append_dropWhile]
  have hascii : ∀ c ∈ whole, c.utf8Size = 1 := by
    intro c hc
    rw [← hwhole] at hc
    exact utf8Size_of_isDigit (List.mem_takeWhile_imp hc)
  rw [mantissa?, digitCount_bytesOf, hwhole]
  generalize cs.dropWhile Char.isDigit = tail at hfraction hsplit
  subst hsplit hfraction
  rw [bytesOf_ascii_append hascii, getElem?_append_length]
  rcases Literal.scanFraction_cases tail with ⟨hpoint, hscan⟩ | ⟨ds, rest, hds, hrest, rfl, hscan⟩
  · rw [if_neg (mt (head?_bytesOf rfl).mp hpoint), hscan, fractionText, Option.getD_none,
      List.append_nil]
  · have hdrop : dropBytes? (whole ++ bytesOf ('.' :: (ds ++ rest))) (whole.length + 1)
        = some (bytesOf (ds ++ rest)) := by
      rw [bytesOf_cons, bytesOf_singleton rfl, ← List.append_assoc,
        ← List.length_singleton (a := '.'), ← List.length_append, dropBytes?_append]
    rw [if_pos ((head?_bytesOf rfl).mpr rfl), hdrop, Option.bind_eq_bind, Option.bind_some,
      digitCount_bytesOf, (takeWhile_dropWhile_append hds hrest).1, hscan]
    simp only [fractionText, Option.getD_some, List.length_append, List.length_cons,
      Nat.add_right_comm, Nat.add_assoc]
    rfl

/-- **The number of bytes of a literal** is that of the characters which are taken off the text. -/
theorem literalLength?_eq (cs : List Char) :
    literalLength? (bytesOf cs) = some ((Literal.scan cs).map fun r ↦ r.1.text.length) := by
  obtain ⟨whole, hwhole⟩ : ∃ whole, cs.takeWhile Char.isDigit = whole := ⟨_, rfl⟩
  obtain ⟨⟨fraction, tail⟩, hfraction⟩ :
    ∃ r, scanFraction (cs.dropWhile Char.isDigit) = r := ⟨_, rfl⟩
  obtain ⟨htail, hpoint⟩ := of_scanFraction_eq hfraction
  have hsplit : cs = whole ++ fractionText fraction ++ tail := by
    rw [List.append_assoc, ← htail, ← hwhole, List.takeWhile_append_dropWhile]
  have hascii : ∀ c ∈ whole ++ fractionText fraction, c.utf8Size = 1 := by
    intro c hc
    rcases List.mem_append.mp hc with hc | hc
    · exact utf8Size_of_isDigit (List.mem_takeWhile_imp (hwhole ▸ hc))
    · exact hpoint c hc
  rw [literalLength?, mantissa?_eq cs hwhole (congrArg Prod.fst hfraction), Literal.scan, hwhole,
    hfraction, Option.bind_eq_bind, Option.bind_some]
  dsimp only
  by_cases hdigits : whole ++ fraction.getD [] = []
  · obtain ⟨hnil, hnil'⟩ := List.append_eq_nil_iff.mp hdigits
    rw [hnil, hnil']
    rfl
  · have hempty : (whole.isEmpty && (fraction.getD []).isEmpty) = false := by
      rw [Bool.eq_false_iff]
      simpa using hdigits
    have hexponent := exponentEnd?_eq (whole ++ fractionText fraction) tail
    rw [← bytesOf_ascii_append hascii, ← hsplit] at hexponent
    rw [if_neg (mt List.eq_nil_of_length_eq_zero hdigits), hexponent, hempty]
    generalize scanExponent tail = scanned
    obtain ⟨exponent, rest⟩ := scanned
    refine congrArg (some ∘ some) ?_
    change _ = (whole ++ fractionText fraction ++ exponentText exponent).length
    exact List.length_append.symm

namespace Literal

private theorem ends_nil (l : Literal) : l.Ends [] := by
  refine ⟨nofun, nofun, ?_⟩
  rintro - ⟨e, rest, -, h⟩
  cases h

/-- **A literal that stands alone is read** as its value. -/
theorem read_text (hl : l.WellFormed) : read l.text = some l.value := by
  obtain ⟨d, ds, htext, hd⟩ := exists_text_eq hl
  have hscan := scan_text_append hl l.ends_nil
  rw [List.append_nil] at hscan
  rw [htext, read_of_numeric ds hd, ← htext, hscan]

end Literal

end Decimal

/-! ## Turns of the scanner -/

theorem Text.utf8Size_of_isAsciiBlank {c : Char} (h : isAsciiBlank c = true) : c.utf8Size = 1 := by
  simp only [isAsciiBlank, Bool.or_eq_true, beq_iff_eq] at h
  rcases h with (((rfl | rfl) | rfl) | rfl) | rfl <;> rfl

namespace Lexeme

variable {text : String} {cs ds : List Char} {c : Char} {p turns : Nat}

/-- A character that starts nothing that a formula may contain. -/
def StartsNothing (c : Char) : Prop :=
  isAsciiBlank c = false ∧ (c.isDigit || c = '.') = false ∧
    Token.ofChar? c = (none : Option (Token Float))

theorem startsNothing_of_utf8Size (h : c.utf8Size ≠ 1) : StartsNothing c := by
  refine ⟨Bool.eq_false_iff.mpr fun hblank ↦ h (utf8Size_of_isAsciiBlank hblank),
    Bool.eq_false_iff.mpr fun hnumeric ↦ h ?_,
    Option.eq_none_iff_forall_not_mem.mpr fun t ht ↦ h (Token.utf8Size_of_ofChar? ht)⟩
  rcases Bool.or_eq_true_iff.mp hnumeric with hdigit | hpoint
  · exact utf8Size_of_isDigit hdigit
  · rw [of_decide_eq_true hpoint]
    rfl

private theorem scan_of_startsNothing (h : StartsNothing c) (cs : List Char) :
    scan c cs = .error .token := by
  rw [scan, h.2.1, if_neg Bool.false_ne_true, h.2.2]

private theorem turn_blank (h : StandsAt text p (c :: cs)) (hblank : isAsciiBlank c = true) :
    listBytes? text (turns + 1) p = listBytes? text turns (p + c.utf8Size) := by
  have hsize := utf8Size_of_isAsciiBlank hblank
  rw [listBytes?, h.byte hsize, hsize]
  dsimp only
  rw [if_pos hblank]

/-- Where no token starts, the scanner stops. Of a character that is not ASCII it sees a byte that
starts no token, either. -/
theorem turn_error {expected : Expectation} (h : StandsAt text p (c :: cs))
    (hblank : isAsciiBlank c = false) (hscan : scan c cs = .error expected) :
    listBytes? text (turns + 1) p = some (.error ⟨p, expected⟩) := by
  by_cases hsize : c.utf8Size = 1
  · rw [listBytes?, h.byte hsize]
    dsimp only
    rw [hblank, if_neg Bool.false_ne_true]
    rw [scan] at hscan
    split at hscan
    next hnumeric =>
      split at hscan
      · cases hscan
      next hnone =>
        cases hscan
        rw [if_pos hnumeric, h.bytes.2, Option.bind_eq_bind, Option.bind_some,
          literalLength?_eq, hnone]
        rfl
    next hnumeric =>
      split at hscan
      · cases hscan
      next hnone =>
        cases hscan
        rw [if_neg hnumeric, hnone]
  -- The scanner sees a byte that is not the character; it only shares with it that it is not ASCII.
  · obtain ⟨b, bs, hbytes, hb⟩ := exists_bytesOf_eq hsize
    obtain ⟨hblank', hnumeric, hchar⟩ := startsNothing_of_utf8Size hb
    cases (scan_of_startsNothing (startsNothing_of_utf8Size hsize) cs).symm.trans hscan
    rw [listBytes?, h.bytes.1, bytesOf_cons, hbytes, List.cons_append, List.head?_cons]
    dsimp only
    rw [hblank', hnumeric, hchar]
    rfl

/-- A token is taken off, and the scanner goes on behind it. The text of a number is cut out between
characters, and is read. -/
theorem turn_token {t : Token Float} (h : StandsAt text p (c :: (ds ++ cs)))
    (hblank : isAsciiBlank c = false) (hscan : scan c (ds ++ cs) = .ok (t, ds.length + 1)) :
    listBytes? text (turns + 1) p
      = (do
        let rest ← listBytes? text turns (p + (ds.length + 1))
        return rest.map (⟨p, ds.length + 1, t⟩ :: ·)) := by
  have hlength := utf8Len_of_scan hscan
  rcases scan_cases hscan with ⟨hnumeric, l, rest, hl, hends, hsplit, rfl, hsize⟩ |
    ⟨hnumeric, hchar, hsize⟩
  · have hsplit' : (c :: ds) ++ cs = l.text ++ rest := hsplit
    obtain ⟨htext, rfl⟩ := List.append_inj hsplit' hsize
    have hascii : c.utf8Size = 1 := by
      refine Literal.utf8Size_of_isPart (Literal.isPart_of_mem_text hl ?_)
      rw [← htext]
      exact List.mem_cons_self
    have hfront : StandsAt text p (c :: ds ++ cs) := h
    have hslice := hfront.slice?_eq
    have hliteral : literalLength? (bytesOf (c :: (ds ++ cs))) = some (some (ds.length + 1)) := by
      rw [literalLength?_eq, hsplit, Literal.scan_text_append hl hends, hsize]
      rfl
    rw [hlength] at hslice
    rw [listBytes?, h.byte hascii]
    dsimp only
    rw [hblank, if_neg Bool.false_ne_true, if_pos hnumeric, h.bytes.2, Option.bind_eq_bind,
      Option.bind_some, hliteral, Option.bind_eq_bind, Option.bind_some]
    dsimp only
    rw [hslice, Option.bind_eq_bind, Option.bind_some, String.toList_ofList, htext,
      Literal.read_text hl]
  · obtain rfl : ds = [] := List.eq_nil_of_length_eq_zero (by omega)
    rw [listBytes?, h.byte (Token.utf8Size_of_ofChar? hchar)]
    dsimp only
    rw [hblank, if_neg Bool.false_ne_true, hnumeric, if_neg Bool.false_ne_true, hchar]
    rfl

/-- **The scanners are in step**, if there is a turn for each of the characters that are left and
one for the end. -/
theorem listBytes?_eq (h : StandsAt text p cs) (hturns : cs.length ≤ turns) :
    listBytes? text (turns + 1) p = some (listFrom p 0 cs) := by
  induction cs using turn_induction generalizing p turns with
  | nil =>
    rw [listBytes?, h.bytes.1]
    rfl
  | blank c cs hblank ih =>
    obtain ⟨turns, rfl⟩ := Nat.exists_eq_succ_of_ne_zero (Nat.ne_zero_of_lt hturns)
    rw [turn_blank h hblank, ih h.tail (Nat.le_of_succ_le_succ hturns), listFrom_blank hblank]
  | error c cs expected hblank hscan =>
    rw [turn_error h hblank hscan, listFrom_error hblank hscan]
  | token c ds cs t hblank hscan ih =>
    obtain ⟨turns, rfl⟩ := Nat.exists_eq_succ_of_ne_zero (Nat.ne_zero_of_lt hturns)
    rw [List.length_cons, List.length_append] at hturns
    -- The turn goes on by bytes, the induction by characters: for a token, they are as many.
    have hfront : StandsAt text p (c :: ds ++ cs) := h
    have hbehind := hfront.behind
    rw [utf8Len_of_scan hscan] at hbehind
    rw [turn_token h hblank hscan, ih hbehind (by omega), listFrom_token hblank hscan]
    rfl

end Lexeme

end ImplicitPlot
