import ImplicitPlot.Formula.Parser
import ImplicitPlot.Proofs.Decimal.Written

/-!
# Letter case

A letter names the same variable in either case, and opens an exponent in either case. Nothing else
that is asked of a character depends on its case (`apply_toLower`), so a text has the lexemes
that it has in lower case, at the same positions, `Lexeme.listFrom_lower`.
-/

namespace ImplicitPlot

/-! ## Characters -/

/-- What is the same for both cases of each letter is the same for a character and the one in lower
case. -/
theorem apply_toLower {β : Type} (f : Char → β)
    (h : ∀ n < 26, f (Char.ofNat (n + 97)) = f (Char.ofNat (n + 65))) (c : Char) :
    f c.toLower = f c := by
  by_cases hc : c.isUpper = true
  · rw [Char.toLower_eq_of_isUpper hc]
    rw [Char.isUpper, decide_eq_true_iff] at hc
    have hlow : 65 ≤ c.toNat := UInt32.le_iff_toNat_le.mp hc.1
    have hhigh : c.toNat ≤ 90 := UInt32.le_iff_toNat_le.mp hc.2
    obtain ⟨n, hn⟩ := Nat.exists_eq_add_of_le' hlow
    have hletter := h n (by omega)
    rwa [← hn, Char.ofNat_toNat, show n + 97 = c.toNat + 32 by omega] at hletter
  · rw [Char.toLower_eq_of_not_isUpper hc]

theorem toLower_iff (p : Char → Prop) [DecidablePred p]
    (h : ∀ n < 26, p (Char.ofNat (n + 97)) ↔ p (Char.ofNat (n + 65))) (c : Char) :
    p c.toLower ↔ p c :=
  decide_eq_decide.mp
    (apply_toLower (fun c ↦ decide (p c)) (fun n hn ↦ decide_eq_decide.mpr (h n hn)) c)

@[simp] theorem isDigit_toLower (c : Char) : c.toLower.isDigit = c.isDigit :=
  apply_toLower Char.isDigit (by decide) c

@[simp] theorem utf8Len_lower (cs : List Char) :
    String.utf8Len (cs.map Char.toLower) = String.utf8Len cs := by
  induction cs with
  | nil => rfl
  | cons c cs ih =>
    rw [List.map_cons, String.utf8Len_cons, String.utf8Len_cons, ih,
      apply_toLower Char.utf8Size (by decide) c]

namespace Decimal

/-! ## Literals -/

/-- The exponent, opened by a small letter. -/
def Exponent.lower (e : Exponent) : Exponent := { e with mark := e.mark.toLower }

/-- The literal, with a small letter before its exponent. -/
def Literal.lower (l : Literal) : Literal := { l with exponent := l.exponent.map Exponent.lower }

@[simp] theorem Literal.value_lower (l : Literal) : l.lower.value = l.value := by
  obtain ⟨whole, fraction, exponent⟩ := l
  cases exponent <;> rfl

theorem Literal.length_text_lower (l : Literal) : l.lower.text.length = l.text.length := by
  obtain ⟨whole, fraction, exponent⟩ := l
  cases exponent with
  | none => rfl
  | some e =>
    simp only [text, lower, Option.map_some, Exponent.text, Exponent.lower, List.length_append,
      List.length_cons]

theorem takeWhile_lower (cs : List Char) :
    (cs.map Char.toLower).takeWhile Char.isDigit = cs.takeWhile Char.isDigit := by
  induction cs with
  | nil => rfl
  | cons c cs ih =>
    rw [List.map_cons, List.takeWhile_cons, List.takeWhile_cons, isDigit_toLower, ih]
    split
    next hdigit => rw [Char.toLower_eq_of_not_isUpper (not_isUpper_of_isDigit hdigit)]
    next => rfl

theorem dropWhile_lower (cs : List Char) :
    (cs.map Char.toLower).dropWhile Char.isDigit
      = (cs.dropWhile Char.isDigit).map Char.toLower := by
  have hdigit : Char.isDigit ∘ Char.toLower = Char.isDigit := funext isDigit_toLower
  rw [List.dropWhile_map, hdigit]

private theorem scanSign_lower (cs : List Char) :
    scanSign (cs.map Char.toLower) = ((scanSign cs).1, (scanSign cs).2.map Char.toLower) := by
  have hnone {c : Char} {cs : List Char} (hplus : c ≠ '+') (hminus : c ≠ '-') :
      scanSign (c :: cs) = (none, c :: cs) := by
    rw [scanSign]
    · rintro cs ⟨⟩
      exact hplus rfl
    · rintro cs ⟨⟩
      exact hminus rfl
  cases cs with
  | nil => rfl
  | cons c cs =>
    by_cases hplus : c = '+'
    · rw [hplus]
      rfl
    by_cases hminus : c = '-'
    · rw [hminus]
      rfl
    have hplus' : c.toLower ≠ '+' := (toLower_iff (· ≠ '+') (by decide) c).mpr hplus
    have hminus' : c.toLower ≠ '-' := (toLower_iff (· ≠ '-') (by decide) c).mpr hminus
    rw [List.map_cons, hnone hplus' hminus', hnone hplus hminus, List.map_cons]

private theorem scanExponent_lower (cs : List Char) :
    scanExponent (cs.map Char.toLower)
      = ((scanExponent cs).1.map Exponent.lower, (scanExponent cs).2.map Char.toLower) := by
  match cs with
  | [] => rfl
  | c :: cs =>
    rw [List.map_cons, scanExponent, scanExponent, scanSign_lower]
    dsimp only
    rw [takeWhile_lower, dropWhile_lower]
    by_cases hmark : c = 'e' ∨ c = 'E'
    · rw [if_pos ((toLower_iff (fun c ↦ c = 'e' ∨ c = 'E') (by decide) c).mpr hmark), if_pos hmark]
      split <;> rfl
    · rw [if_neg ((toLower_iff (fun c ↦ c = 'e' ∨ c = 'E') (by decide) c).not.mpr hmark),
        if_neg hmark]
      rfl

private theorem scanFraction_lower (cs : List Char) :
    scanFraction (cs.map Char.toLower)
      = ((scanFraction cs).1, (scanFraction cs).2.map Char.toLower) := by
  match cs with
  | [] => rfl
  | c :: cs =>
    by_cases hpoint : c = '.'
    · rw [hpoint]
      change (some _, _) = (some _, _)
      rw [takeWhile_lower, dropWhile_lower]
      rfl
    · have hpoint' : c.toLower ≠ '.' := (toLower_iff (· ≠ '.') (by decide) c).mpr hpoint
      have hhead {c : Char} {cs : List Char} (hc : c ≠ '.') : (c :: cs).head? ≠ some '.' :=
        fun h ↦ hc (Option.some.inj h)
      rw [List.map_cons, Literal.scanFraction_of_head? (hhead hpoint'),
        Literal.scanFraction_of_head? (hhead hpoint), List.map_cons]

theorem Literal.scan_lower (cs : List Char) :
    scan (cs.map Char.toLower) = (scan cs).map fun r ↦ (r.1.lower, r.2.map Char.toLower) := by
  rw [scan, scan, takeWhile_lower, dropWhile_lower, scanFraction_lower]
  dsimp only
  rw [scanExponent_lower]
  split <;> rfl

end Decimal

/-! ## Lexemes -/

namespace Lexeme

/-- **Tokens do not depend on the case of letters.** -/
theorem scan_lower (c : Char) (cs : List Char) :
    scan c.toLower (cs.map Char.toLower) = scan c cs := by
  have hnumeric : (c.toLower.isDigit || c.toLower = '.') = (c.isDigit || c = '.') :=
    apply_toLower (fun c ↦ c.isDigit || decide (c = '.')) (by decide) c
  have hchar : Token.ofChar? c.toLower = (Token.ofChar? c : Option (Token Float)) :=
    apply_toLower Token.ofChar? (by decide) c
  have hliteral : Decimal.Literal.scan (c.toLower :: cs.map Char.toLower)
      = (Decimal.Literal.scan (c :: cs)).map fun r ↦ (r.1.lower, r.2.map Char.toLower) :=
    Decimal.Literal.scan_lower (c :: cs)
  rw [scan, scan, hnumeric, hchar, hliteral]
  split
  · cases Decimal.Literal.scan (c :: cs) with
    | none => rfl
    | some r =>
      dsimp only [Option.map_some]
      rw [Decimal.Literal.value_lower, Decimal.Literal.length_text_lower]
  · rfl

theorem listFrom_lower (position skip : Nat) (cs : List Char) :
    listFrom position skip (cs.map Char.toLower) = listFrom position skip cs := by
  induction cs generalizing position skip with
  | nil => rfl
  | cons c cs ih =>
    have hsize : c.toLower.utf8Size = c.utf8Size := apply_toLower Char.utf8Size (by decide) c
    have hblank : Text.isAsciiBlank c.toLower = Text.isAsciiBlank c :=
      apply_toLower Text.isAsciiBlank (by decide) c
    cases skip with
    | succ skip =>
      rw [List.map_cons, listFrom, listFrom, hsize, ih]
    | zero =>
      rw [List.map_cons, listFrom, listFrom, hsize, hblank, scan_lower]
      simp only [ih]

end Lexeme

/-- Texts that are the same in lower case are read alike. -/
theorem Expr.parse_eq_of_lower_eq {text text' : String}
    (h : text.toList.map Char.toLower = text'.toList.map Char.toLower) :
    parse text = parse text' := by
  have hlexemes : Lexeme.list text = Lexeme.list text' := by
    rw [Lexeme.list, Lexeme.list, ← Lexeme.listFrom_lower, h, Lexeme.listFrom_lower]
  have hsize : text.utf8ByteSize = text'.utf8ByteSize := by
    rw [← String.ofList_toList (s := text), ← String.ofList_toList (s := text'),
      String.utf8ByteSize_ofList, String.utf8ByteSize_ofList, ← utf8Len_lower, h, utf8Len_lower]
  rw [parse, parse, hlexemes, hsize]

end ImplicitPlot
