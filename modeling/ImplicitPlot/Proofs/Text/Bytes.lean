import Mathlib.Data.String.Basic
import ImplicitPlot.Text.Blank

/-!
# Texts as bytes

The bytes of a text, each taken for the character that has the byte's number. An ASCII character is
one byte, which stands for itself (`bytesOf_singleton`). The first byte of any other character
stands for a character that is not ASCII, so that it is not taken for one (`exists_bytesOf_eq`). So
the ASCII characters that a text starts with are its first bytes.

Two kinds of parts are cut out of a text: the bytes from a place on, if the place is not past the
end, and the text between two places, if both are between characters. A place between characters is
known by the characters that follow it (`StandsAt`).
-/

namespace ImplicitPlot.Text

/-- The bytes of a text, each as the character with its number. -/
def byteChars (text : String) : List Char := text.toByteArray.data.toList.map Char.ofUInt8

/-- The bytes from a place on, if there is such a place. -/
def dropBytes? (bytes : List Char) (start : Nat) : Option (List Char) :=
  if start ≤ bytes.length then some (bytes.drop start) else none

/-- The text between two places, if both are between characters. -/
def slice? (text : String) (start stop : Nat) : Option String :=
  if String.Pos.Raw.isValid text ⟨start⟩ ∧ String.Pos.Raw.isValid text ⟨stop⟩ ∧ start ≤ stop then
    some (String.Pos.Raw.extract text ⟨start⟩ ⟨stop⟩)
  else none

/-- The characters are those of the text from a place on, which is between characters. -/
def StandsAt (text : String) (place : Nat) (cs : List Char) : Prop :=
  ∃ before, text.toList = before ++ cs ∧ String.utf8Len before = place

/-- The bytes of characters. -/
def bytesOf (cs : List Char) : List Char :=
  (cs.flatMap String.utf8EncodeChar).map Char.ofUInt8

variable {c : Char} {cs ds : List Char}

theorem byteChars_eq (text : String) : byteChars text = bytesOf text.toList := by
  have hbytes : text.toByteArray = text.toList.utf8Encode := by
    rw [← String.toByteArray_ofList, String.ofList_toList]
  rw [byteChars, bytesOf, hbytes, List.utf8Encode, List.data_toByteArray]

@[simp] theorem bytesOf_append (cs ds : List Char) :
    bytesOf (cs ++ ds) = bytesOf cs ++ bytesOf ds := by
  rw [bytesOf, List.flatMap_append, List.map_append]
  rfl

theorem bytesOf_cons (c : Char) (cs : List Char) : bytesOf (c :: cs) = bytesOf [c] ++ bytesOf cs :=
  bytesOf_append [c] cs

theorem length_bytesOf (cs : List Char) : (bytesOf cs).length = String.utf8Len cs := by
  induction cs with
  | nil => rfl
  | cons c cs ih =>
    rw [bytesOf_cons, List.length_append, ih, String.utf8Len_cons, Nat.add_comm]
    rw [bytesOf, List.length_map, List.flatMap_singleton, String.length_utf8EncodeChar]

/-! ## ASCII characters -/

theorem bytesOf_singleton (h : c.utf8Size = 1) : bytesOf [c] = [c] := by
  have hle : c.toNat ≤ 127 := UInt32.le_iff_toNat_le.mp (Char.utf8Size_eq_one_iff.mp h)
  have hencode : String.utf8EncodeChar c = [UInt8.ofNat c.toNat] := by
    rw [String.utf8EncodeChar.eq_1]
    exact if_pos hle
  rw [bytesOf, List.flatMap_singleton, hencode]
  refine congrArg (· :: []) (Char.ext (UInt32.toNat_inj.mp ?_))
  change c.toNat % 2 ^ 8 = c.toNat
  omega

theorem bytesOf_ascii (h : ∀ c ∈ cs, c.utf8Size = 1) : bytesOf cs = cs := by
  induction cs with
  | nil => rfl
  | cons c cs ih =>
    rw [bytesOf_cons, bytesOf_singleton (h c List.mem_cons_self),
      ih fun d hd ↦ h d (List.mem_cons_of_mem c hd)]
    rfl

theorem bytesOf_ascii_append (h : ∀ c ∈ cs, c.utf8Size = 1) (ds : List Char) :
    bytesOf (cs ++ ds) = cs ++ bytesOf ds := by
  rw [bytesOf_append, bytesOf_ascii h]

/-! ## Other characters -/

@[simp] theorem toNat_ofUInt8_ofNat (n : Nat) :
    (Char.ofUInt8 (UInt8.ofNat n)).toNat = n % 2 ^ 8 :=
  rfl

theorem exists_bytesOf_eq (h : c.utf8Size ≠ 1) :
    ∃ b bs, bytesOf [c] = b :: bs ∧ b.utf8Size ≠ 1 := by
  have hlarge {b : Char} (hb : 127 < b.toNat) : b.utf8Size ≠ 1 := by
    rw [Ne, Char.utf8Size_eq_one_iff, UInt32.le_iff_toNat_le, Nat.not_le]
    exact hb
  have hc : ¬c.val.toNat ≤ 127 := by
    rwa [Ne, Char.utf8Size_eq_one_iff, UInt32.le_iff_toNat_le] at h
  rw [bytesOf, List.flatMap_singleton, String.utf8EncodeChar.eq_1, if_neg hc]
  split
  · refine ⟨_, _, rfl, hlarge ?_⟩
    rw [toNat_ofUInt8_ofNat]
    omega
  split
  · refine ⟨_, _, rfl, hlarge ?_⟩
    rw [toNat_ofUInt8_ofNat]
    omega
  · refine ⟨_, _, rfl, hlarge ?_⟩
    rw [toNat_ofUInt8_ofNat]
    omega

theorem head?_bytesOf (hc : c.utf8Size = 1) : (bytesOf cs).head? = some c ↔ cs.head? = some c := by
  cases cs with
  | nil => rfl
  | cons d cs =>
    rw [bytesOf_cons]
    by_cases hd : d.utf8Size = 1
    · rw [bytesOf_singleton hd]
      rfl
    · obtain ⟨b, bs, hbytes, hb⟩ := exists_bytesOf_eq hd
      rw [hbytes]
      constructor
      · rintro ⟨⟩
        exact absurd hc hb
      · rintro ⟨⟩
        exact absurd hc hd

section Property

variable {p : Char → Bool} (hp : ∀ c, p c = true → c.utf8Size = 1)

include hp

theorem takeWhile_dropWhile_bytesOf (cs : List Char) :
    (bytesOf cs).takeWhile p = cs.takeWhile p ∧
      (bytesOf cs).dropWhile p = bytesOf (cs.dropWhile p) := by
  have hother {c : Char} (hc : c.utf8Size ≠ 1) : ¬p c = true := fun h ↦ hc (hp c h)
  induction cs with
  | nil => exact ⟨rfl, rfl⟩
  | cons c cs ih =>
    rw [bytesOf_cons]
    by_cases hc : c.utf8Size = 1
    · rw [bytesOf_singleton hc, List.singleton_append]
      by_cases hpc : p c = true
      · rw [List.takeWhile_cons_of_pos hpc, List.takeWhile_cons_of_pos hpc,
          List.dropWhile_cons_of_pos hpc, List.dropWhile_cons_of_pos hpc]
        exact ⟨congrArg (c :: ·) ih.1, ih.2⟩
      · rw [List.takeWhile_cons_of_neg hpc, List.takeWhile_cons_of_neg hpc,
          List.dropWhile_cons_of_neg hpc, List.dropWhile_cons_of_neg hpc, bytesOf_cons,
          bytesOf_singleton hc]
        exact ⟨rfl, rfl⟩
    · obtain ⟨b, bs, hbytes, hb⟩ := exists_bytesOf_eq hc
      rw [List.takeWhile_cons_of_neg (hother hc), List.dropWhile_cons_of_neg (hother hc),
        bytesOf_cons c cs, hbytes, List.cons_append, List.takeWhile_cons_of_neg (hother hb),
        List.dropWhile_cons_of_neg (hother hb)]
      exact ⟨rfl, rfl⟩

end Property

/-! ## Parts of a text -/

@[simp] theorem dropBytes?_append (bytes rest : List Char) :
    dropBytes? (bytes ++ rest) bytes.length = some rest := by
  rw [dropBytes?, List.length_append, if_pos (Nat.le_add_right _ _), List.drop_left]

@[simp] theorem getElem?_append_length (as bs : List Char) : (as ++ bs)[as.length]? = bs.head? := by
  rw [List.getElem?_append_right (Nat.le_refl _), Nat.sub_self, List.head?_eq_getElem?]

namespace StandsAt

variable {text : String} {p : Nat}

theorem start (text : String) : StandsAt text 0 text.toList := ⟨[], rfl, rfl⟩

theorem eq_end (h : StandsAt text p []) : p = text.utf8ByteSize := by
  obtain ⟨before, htext, rfl⟩ := h
  rw [← String.utf8ByteSize_ofList, ← List.append_nil before, ← htext, String.ofList_toList]

/-- Behind some of the characters are the others. -/
theorem behind (h : StandsAt text p (ds ++ cs)) : StandsAt text (p + String.utf8Len ds) cs := by
  obtain ⟨before, htext, rfl⟩ := h
  exact ⟨before ++ ds, by rw [htext, List.append_assoc], String.utf8Len_append _ _⟩

theorem tail (h : StandsAt text p (c :: cs)) : StandsAt text (p + c.utf8Size) cs := by
  have hfront : StandsAt text p ([c] ++ cs) := h
  have hbehind := hfront.behind
  rwa [String.utf8Len_cons, String.utf8Len_nil, Nat.zero_add] at hbehind

/-- The bytes from the place on are those of the characters. -/
theorem bytes (h : StandsAt text p cs) :
    (byteChars text)[p]? = (bytesOf cs).head? ∧
      dropBytes? (byteChars text) p = some (bytesOf cs) := by
  obtain ⟨before, htext, rfl⟩ := h
  rw [byteChars_eq, htext, bytesOf_append, ← length_bytesOf, getElem?_append_length,
    dropBytes?_append]
  exact ⟨rfl, rfl⟩

theorem byte (h : StandsAt text p (c :: cs)) (hsize : c.utf8Size = 1) :
    (byteChars text)[p]? = some c := by
  rw [h.bytes.1, head?_bytesOf hsize, List.head?_cons]

theorem exists_byte {i : Nat} (h : StandsAt text p (ds ++ cs)) (hascii : ∀ d ∈ ds, d.utf8Size = 1)
    (hle : p ≤ i) (hlt : i < p + ds.length) : ∃ b ∈ (byteChars text)[i]?, b ∈ ds := by
  obtain ⟨before, htext, rfl⟩ := h
  have hi : i - String.utf8Len before < ds.length := by omega
  refine ⟨ds[i - String.utf8Len before], ?_, List.getElem_mem hi⟩
  rw [Option.mem_def, byteChars_eq, htext, bytesOf_append, bytesOf_ascii_append hascii,
    List.getElem?_append_right (by rwa [length_bytesOf]), length_bytesOf,
    List.getElem?_append_left hi, List.getElem?_eq_getElem hi]

theorem isValid (h : StandsAt text p cs) : String.Pos.Raw.isValid text ⟨p⟩ = true := by
  obtain ⟨before, htext, rfl⟩ := h
  rw [String.Pos.Raw.isValid_eq_true_iff, String.Pos.Raw.isValid_iff_exists_append]
  refine ⟨String.ofList before, String.ofList cs, ?_, String.Pos.Raw.ext ?_⟩
  · rw [← String.ofList_append, ← htext, String.ofList_toList]
  · rw [String.byteIdx_rawEndPos, String.utf8ByteSize_ofList]

theorem slice?_eq (h : StandsAt text p (ds ++ cs)) :
    slice? text p (p + String.utf8Len ds) = some (String.ofList ds) := by
  have hstart := h.isValid
  have hstop := h.behind.isValid
  obtain ⟨before, htext, rfl⟩ := h
  have htext' : text = String.ofList (before ++ ds ++ cs) := by
    rw [List.append_assoc, ← htext, String.ofList_toList]
  rw [slice?, if_pos ⟨hstart, hstop, Nat.le_add_right _ _⟩, htext', String.extract_of_valid]

end StandsAt

end ImplicitPlot.Text
