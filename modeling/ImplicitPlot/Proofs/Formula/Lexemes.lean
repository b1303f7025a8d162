import ImplicitPlot.Formula.Token
import ImplicitPlot.Proofs.Decimal.Scanning
import ImplicitPlot.Proofs.Sequence

/-!
# Texts as blanks and lexemes

A text that has lexemes is made up of them and of blanks (`Lexeme.MadeOf`). All characters of a
lexeme are ASCII, so that its length in characters is its length in bytes. The lexemes stand one
after another, each after the ones before it and within the text, so that they are told apart by
their positions.
-/

namespace ImplicitPlot

open Decimal

theorem utf8Size_eq_one {c : Char} (h : c.toNat ≤ 127) : c.utf8Size = 1 :=
  Char.utf8Size_eq_one_iff.mpr (UInt32.le_iff_toNat_le.mpr h)

theorem Decimal.Literal.utf8Size_of_isPart {c : Char} (h : isPart c = true) : c.utf8Size = 1 := by
  simp only [isPart, isNumeric, Bool.or_eq_true, decide_eq_true_eq] at h
  rcases h with ((((h | rfl) | rfl) | rfl) | rfl) | rfl
  · refine utf8Size_eq_one (Nat.le_trans (Char.isDigit_iff_toNat.mp h).2 (by decide))
  all_goals rfl

theorem Variable.utf8Size_of_ofChar? {c : Char} {v : Variable} (h : ofChar? c = some v) :
    c.utf8Size = 1 := by
  rw [ofChar?] at h
  apply utf8Size_eq_one
  split at h
  next hlower =>
    simp only [Char.isLower, Bool.and_eq_true, decide_eq_true_eq] at hlower
    exact Nat.le_trans (UInt32.le_iff_toNat_le.mp hlower.2) (by decide)
  next =>
    split at h
    next hupper =>
      rw [Char.isUpper, decide_eq_true_iff] at hupper
      exact Nat.le_trans (UInt32.le_iff_toNat_le.mp hupper.2) (by decide)
    next => cases h

theorem Token.ofChar?_cases {α : Type} {c : Char} {t : Token α} (h : ofChar? c = some t) :
    (c, t) ∈ [('+', plus), ('-', minus), ('*', star), ('/', slash), ('^', caret),
      ('(', openParen), (')', closeParen), ('|', bar)] ∨
      ∃ v, t = letter v ∧ Variable.ofChar? c = some v := by
  rw [ofChar?.eq_def] at h
  split at h
  case h_9 =>
    obtain ⟨v, hv, rfl⟩ := Option.map_eq_some_iff.mp h
    exact .inr ⟨v, rfl, hv⟩
  all_goals
    cases h
    exact .inl (by simp)

theorem Token.utf8Size_of_ofChar? {α : Type} {c : Char} {t : Token α} (h : ofChar? c = some t) :
    c.utf8Size = 1 := by
  rcases ofChar?_cases h with hmem | ⟨v, -, hv⟩
  · simp only [List.mem_cons, Prod.mk.injEq, List.not_mem_nil, or_false] at hmem
    rcases hmem with ⟨rfl, -⟩ | ⟨rfl, -⟩ | ⟨rfl, -⟩ | ⟨rfl, -⟩ | ⟨rfl, -⟩ | ⟨rfl, -⟩ | ⟨rfl, -⟩ |
      ⟨rfl, -⟩ <;> rfl
  · exact Variable.utf8Size_of_ofChar? hv

namespace Lexeme

/-- From the position on, the text is made up of blanks and of the lexemes. -/
inductive MadeOf : Nat → List Char → List Lexeme → Prop
  | nil (p : Nat) : MadeOf p [] []
  | blank {p c cs ls} (hblank : Text.isAsciiBlank c = true) (h : MadeOf (p + c.utf8Size) cs ls) :
      MadeOf p (c :: cs) ls
  | token {p c ds cs t ls} (hblank : Text.isAsciiBlank c = false)
      (hscan : scan c (ds ++ cs) = .ok (t, ds.length + 1))
      (h : MadeOf (p + (ds.length + 1)) cs ls) :
      MadeOf p (c :: (ds ++ cs)) (⟨p, ds.length + 1, t⟩ :: ls)

variable {c : Char} {cs ds : List Char} {t : Token Float} {ls : List Lexeme} {p length : Nat}

/-- The token at the front of a text is a number, or is spelt by a single character. -/
theorem scan_cases (h : scan c cs = .ok (t, length)) :
    ((c.isDigit || c = '.') = true ∧ ∃ (l : Literal) (rest : List Char), l.WellFormed ∧
      l.Ends rest ∧ c :: cs = l.text ++ rest ∧ t = .number l.value ∧ length = l.text.length) ∨
    ((c.isDigit || c = '.') = false ∧ Token.ofChar? c = some t ∧ length = 1) := by
  rw [scan] at h
  split at h
  next hnumeric =>
    split at h
    next l rest hscan =>
      obtain ⟨hl, hsplit, hends⟩ := Literal.of_scan_eq_some hscan
      cases h
      exact .inl ⟨hnumeric, l, rest, hl, hends, hsplit, rfl, rfl⟩
    next => cases h
  next hnumeric =>
    split at h
    next hc =>
      cases h
      exact .inr ⟨Bool.eq_false_iff.mpr hnumeric, hc, rfl⟩
    next => cases h

theorem scan_number {l : Literal} {rest : List Char} (hl : l.WellFormed) (hends : l.Ends rest)
    (hnumeric : (c.isDigit || c = '.') = true) (hsplit : c :: cs = l.text ++ rest) :
    scan c cs = .ok (.number l.value, l.text.length) := by
  rw [scan, if_pos hnumeric, hsplit, Literal.scan_text_append hl hends]

theorem scan_char (hnumeric : (c.isDigit || c = '.') = false) (hc : Token.ofChar? c = some t) :
    scan c cs = .ok (t, 1) := by
  rw [scan, hnumeric, if_neg Bool.false_ne_true, hc]

theorem exists_append_of_scan (h : scan c cs = .ok (t, length)) :
    ∃ ds rest, cs = ds ++ rest ∧ length = ds.length + 1 := by
  rcases scan_cases h with ⟨-, l, rest, hl, -, hsplit, -, rfl⟩ | ⟨-, -, rfl⟩
  · obtain ⟨d, ds, htext⟩ := List.exists_cons_of_ne_nil (Literal.text_ne_nil hl)
    rw [htext] at hsplit ⊢
    cases hsplit
    exact ⟨ds, rest, rfl, rfl⟩
  · exact ⟨[], cs, rfl, rfl⟩

theorem utf8Len_of_scan (h : scan c (ds ++ cs) = .ok (t, ds.length + 1)) :
    String.utf8Len (c :: ds) = ds.length + 1 := by
  have hascii {as : List Char} (has : ∀ a ∈ as, a.utf8Size = 1) :
      String.utf8Len as = as.length := by
    induction as with
    | nil => rfl
    | cons a as ih =>
      rw [String.utf8Len_cons, ih fun b hb ↦ has b (List.mem_cons_of_mem _ hb),
        has a List.mem_cons_self, List.length_cons]
  rcases scan_cases h with ⟨-, l, rest, hl, -, hsplit, -, hlength⟩ | ⟨-, hc, hlength⟩
  · have hsplit' : (c :: ds) ++ cs = l.text ++ rest := hsplit
    have htext : c :: ds = l.text := (List.append_inj hsplit' hlength).1
    rw [htext, hascii fun a ha ↦ Literal.utf8Size_of_isPart (Literal.isPart_of_mem_text hl ha),
      ← hlength]
  · have hnil : ds = [] := List.eq_nil_of_length_eq_zero (by omega)
    subst hnil
    refine hascii fun a ha ↦ ?_
    rw [List.mem_singleton.mp ha]
    exact Token.utf8Size_of_ofChar? hc

/-! ## The text of a list of lexemes -/

theorem listFrom_append (p : Nat) (ds cs : List Char) :
    listFrom p ds.length (ds ++ cs) = listFrom (p + String.utf8Len ds) 0 cs := by
  induction ds generalizing p with
  | nil => rfl
  | cons d ds ih =>
    rw [String.utf8Len_cons, Nat.add_comm (String.utf8Len ds), ← Nat.add_assoc]
    exact ih (p + d.utf8Size)

theorem listFrom_blank (hblank : Text.isAsciiBlank c = true) (p : Nat) (cs : List Char) :
    listFrom p 0 (c :: cs) = listFrom (p + c.utf8Size) 0 cs := by
  rw [listFrom, hblank, if_pos rfl]

theorem listFrom_error {expected : Expectation} (hblank : Text.isAsciiBlank c = false)
    (hscan : scan c cs = .error expected) (p : Nat) :
    listFrom p 0 (c :: cs) = .error ⟨p, expected⟩ := by
  rw [listFrom, hblank, if_neg Bool.false_ne_true, hscan]

theorem listFrom_token (hblank : Text.isAsciiBlank c = false)
    (hscan : scan c (ds ++ cs) = .ok (t, ds.length + 1)) (p : Nat) :
    listFrom p 0 (c :: (ds ++ cs)) = (listFrom (p + (ds.length + 1)) 0 cs >>= fun ls ↦
      .ok (⟨p, ds.length + 1, t⟩ :: ls)) := by
  have hsize := utf8Len_of_scan hscan
  rw [String.utf8Len_cons] at hsize
  rw [listFrom, hblank, if_neg Bool.false_ne_true, hscan]
  change (listFrom (p + c.utf8Size) ds.length (ds ++ cs) >>= _) = _
  rw [listFrom_append, Nat.add_assoc, Nat.add_comm c.utf8Size, hsize]
  rfl

theorem MadeOf.listFrom_eq (h : MadeOf p cs ls) : listFrom p 0 cs = .ok ls := by
  induction h with
  | nil p => rfl
  | blank hblank _ ih => rw [listFrom_blank hblank, ih]
  | token hblank hscan _ ih =>
    rw [listFrom_token hblank hscan, ih]
    rfl

/-- Induction along the turns of the scanner: at the end of the text, at a blank, where no token is
scanned, and at a token. A token takes off one character at least. -/
@[elab_as_elim]
theorem turn_induction {motive : List Char → Prop} (cs : List Char) (nil : motive [])
    (blank : ∀ c cs, Text.isAsciiBlank c = true → motive cs → motive (c :: cs))
    (error : ∀ c cs expected, Text.isAsciiBlank c = false → scan c cs = .error expected →
      motive (c :: cs))
    (token : ∀ c ds cs t, Text.isAsciiBlank c = false →
      scan c (ds ++ cs) = .ok (t, ds.length + 1) → motive cs → motive (c :: (ds ++ cs))) :
    motive cs := by
  induction hlength : cs.length using Nat.strongRecOn generalizing cs with
  | _ length ih =>
    match cs with
    | [] => exact nil
    | c :: cs =>
      rw [List.length_cons] at hlength
      cases hblank : Text.isAsciiBlank c with
      | true => exact blank c cs hblank (ih cs.length (by omega) cs rfl)
      | false =>
        cases hscan : scan c cs with
        | error expected => exact error c cs expected hblank hscan
        | ok r =>
          obtain ⟨t, size⟩ := r
          obtain ⟨ds, rest, rfl, rfl⟩ := exists_append_of_scan hscan
          rw [List.length_append] at hlength
          exact token c ds rest t hblank hscan (ih rest.length (by omega) rest rfl)

/-- **A text that has lexemes is made up of them** and of blanks. -/
theorem madeOf_of_listFrom (h : listFrom p 0 cs = .ok ls) : MadeOf p cs ls := by
  induction cs using turn_induction generalizing p ls with
  | nil =>
    cases h
    exact .nil p
  | blank c cs hblank ih =>
    rw [listFrom_blank hblank] at h
    exact .blank hblank (ih h)
  | error c cs expected hblank hscan =>
    rw [listFrom_error hblank hscan] at h
    cases h
  | token c ds cs t hblank hscan ih =>
    rw [listFrom_token hblank hscan] at h
    obtain ⟨ls', hrest, hls⟩ := exists_of_bind_eq_ok h
    cases hls
    exact .token hblank hscan (ih hrest)

theorem madeOf_of_list {text : String} (h : list text = .ok ls) : MadeOf 0 text.toList ls :=
  madeOf_of_listFrom h

theorem utf8ByteSize_eq (text : String) : text.utf8ByteSize = String.utf8Len text.toList := by
  rw [← String.utf8ByteSize_ofList, String.ofList_toList]

/-! ## Positions -/

/-- Every lexeme has characters, and stands within the text. -/
theorem MadeOf.bounds (h : MadeOf p cs ls) : ∀ l ∈ ls, 0 < l.length ∧ p ≤ l.position ∧
    l.position + l.length ≤ p + String.utf8Len cs := by
  induction h with
  | nil p => nofun
  | @blank p c cs ls _ _ ih =>
    intro l hl
    have hbounds := ih l hl
    rw [String.utf8Len_cons]
    omega
  | @token p c ds cs t ls _ hscan _ ih =>
    have hsize := utf8Len_of_scan hscan
    have hsplit : String.utf8Len (c :: (ds ++ cs)) = String.utf8Len (c :: ds) + String.utf8Len cs :=
      String.utf8Len_append (c :: ds) cs
    intro l hl
    rcases List.mem_cons.mp hl with rfl | hl
    · dsimp only
      omega
    · have hbounds := ih l hl
      omega

theorem MadeOf.pairwise (h : MadeOf p cs ls) :
    ls.Pairwise fun l l' ↦ l.position + l.length ≤ l'.position := by
  induction h with
  | nil p => exact .nil
  | blank _ _ ih => exact ih
  | token _ _ hrest ih => exact .cons (fun l hl ↦ (hrest.bounds l hl).2.1) ih

theorem MadeOf.filter_eq {l : Lexeme} {before after : List Lexeme}
    (h : MadeOf p cs (before ++ l :: after)) :
    (before ++ l :: after).filter (·.position < l.position) = before := by
  obtain ⟨-, hafter, hbefore⟩ := List.pairwise_append.mp h.pairwise
  have hl (m : Lexeme) (hm : m ∈ l :: after) : ¬m.position < l.position := by
    rcases List.mem_cons.mp hm with rfl | hm
    · exact Nat.lt_irrefl _
    · have hle := (List.pairwise_cons.mp hafter).1 m hm
      omega
  have hm (m : Lexeme) (hm : m ∈ before) : m.position < l.position := by
    have hle := hbefore m hm l List.mem_cons_self
    have hpos := (h.bounds m (List.mem_append_left _ hm)).1
    omega
  rw [List.filter_append, List.filter_eq_self.mpr fun m hmem ↦ decide_eq_true (hm m hmem),
    List.filter_eq_nil_iff.mpr fun m hmem ↦ by simpa using hl m hmem, List.append_nil]

theorem MadeOf.eq_of_position_eq {l m : Lexeme} {before after : List Lexeme}
    (h : MadeOf p cs (before ++ l :: after)) (hm : m ∈ before ++ l :: after)
    (hposition : m.position = l.position) : m = l := by
  obtain ⟨-, hafter, hbefore⟩ := List.pairwise_append.mp h.pairwise
  have hlength := (h.bounds m hm).1
  have hlength' := (h.bounds l (List.mem_append_right _ List.mem_cons_self)).1
  rcases List.mem_append.mp hm with hm | hm
  · have hle := hbefore m hm l List.mem_cons_self
    omega
  · rcases List.mem_cons.mp hm with rfl | hm
    · rfl
    · have hle := (List.pairwise_cons.mp hafter).1 m hm
      omega

theorem MadeOf.filter_end (h : MadeOf p cs ls) :
    ls.filter (·.position < p + String.utf8Len cs) = ls := by
  refine List.filter_eq_self.mpr fun l hl ↦ decide_eq_true ?_
  have hbounds := h.bounds l hl
  omega

theorem MadeOf.bar_notMem (h : MadeOf p cs ls) (hbar : '|' ∉ cs) : .bar ∉ ls.map (·.token) := by
  induction h with
  | nil p => nofun
  | blank _ _ ih => exact ih fun hmem ↦ hbar (List.mem_cons_of_mem _ hmem)
  | @token p c ds cs t ls _ hscan _ ih =>
    have ht : t ≠ .bar := by
      rintro rfl
      rcases scan_cases hscan with ⟨-, l, rest, -, -, -, ht, -⟩ | ⟨-, hc, -⟩
      · cases ht
      · rcases Token.ofChar?_cases hc with hmem | ⟨v, hv, -⟩
        · simp only [List.mem_cons, Prod.mk.injEq, reduceCtorEq, and_false, and_true,
            List.not_mem_nil, or_false, false_or] at hmem
          exact hbar (hmem ▸ List.mem_cons_self)
        · cases hv
    rw [List.map_cons, List.mem_cons, not_or]
    refine ⟨ht.symm, ih fun hmem ↦ hbar ?_⟩
    exact List.mem_cons_of_mem _ (List.mem_append_right _ hmem)

end Lexeme

end ImplicitPlot
