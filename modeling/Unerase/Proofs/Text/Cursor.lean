import Unerase.Proofs.Text.Scanner

/-!
# Cursors and characters

A scanner counts bytes, and its text consists of characters. The bytes of a text are those that
write its characters, one by one, and where the scanner looks for a character below 128 it does not
matter which of the two is meant, because no other character is written with such a byte. In front
of a character, the cursor is at a boundary, and slices between such cursors are possible.
-/

namespace Unerase.Scan

/-! ## Bytes -/

/-- The bytes that write the characters. -/
def bytes (s : List Char) : List UInt8 := s.flatMap String.utf8EncodeChar

@[simp] theorem bytes_nil : bytes [] = [] := rfl

@[simp] theorem bytes_cons (x : Char) (s : List Char) :
    bytes (x :: s) = String.utf8EncodeChar x ++ bytes s := rfl

@[simp] theorem bytes_append (s r : List Char) : bytes (s ++ r) = bytes s ++ bytes r :=
  List.flatMap_append

@[simp] theorem bytes_eq_nil_iff {s : List Char} : bytes s = [] ↔ s = [] := by
  cases s <;> simp

theorem toByteArray_eq_bytes (text : String) :
    text.toByteArray = (bytes text.toList).toByteArray := by
  conv_lhs => rw [← String.ofList_toList (s := text)]
  rw [String.toByteArray_ofList]
  rfl

theorem length_bytes (s : List Char) : (bytes s).length = (String.ofList s).utf8ByteSize := by
  rw [← String.size_toByteArray, toByteArray_eq_bytes, List.size_toByteArray, String.toList_ofList]

theorem nextByte_eq (text : String) (pos : Nat) :
    nextByte text pos = (bytes text.toList)[pos]?.map Char.ofUInt8 := by
  rw [nextByte, toByteArray_eq_bytes]
  simp [getElem?_def, List.getElem_toByteArray]

theorem toNat_ofUInt8 (b : UInt8) : (Char.ofUInt8 b).toNat = b.toNat :=
  UInt8.toNat_toUInt32 b

/-- A character below 128 is written by the byte of the same number. -/
theorem utf8EncodeChar_of_lt {a : Char} (ha : a.toNat < 128) :
    String.utf8EncodeChar a = [UInt8.ofNat a.toNat] := by
  rw [String.utf8EncodeChar, Char.toNat_val, if_pos (by omega)]

/-- The other characters are written by other bytes. -/
theorem le_toNat_of_mem_utf8EncodeChar {x : Char} (hx : 128 ≤ x.toNat) {b : UInt8}
    (hb : b ∈ String.utf8EncodeChar x) : 128 ≤ b.toNat := by
  have hbyte : ∀ n, 128 ≤ n → n < 256 → 128 ≤ (UInt8.ofNat n).toNat := fun n hn hlt => by
    rwa [UInt8.toNat_ofNat', Nat.mod_eq_of_lt hlt]
  rw [String.utf8EncodeChar, Char.toNat_val, if_neg (by omega)] at hb
  -- two, three or four bytes
  split at hb
  · simp only [List.mem_cons, List.not_mem_nil, or_false] at hb
    rcases hb with rfl | rfl <;> exact hbyte _ (by omega) (by omega)
  split at hb
  · simp only [List.mem_cons, List.not_mem_nil, or_false] at hb
    rcases hb with rfl | rfl | rfl <;> exact hbyte _ (by omega) (by omega)
  · simp only [List.mem_cons, List.not_mem_nil, or_false] at hb
    rcases hb with rfl | rfl | rfl | rfl <;> exact hbyte _ (by omega) (by omega)

/-- So a byte that is read as a character below 128 stands for this character. -/
theorem ofUInt8_eq_iff {x a : Char} (ha : a.toNat < 128) {b : UInt8}
    (hb : b ∈ String.utf8EncodeChar x) : Char.ofUInt8 b = a ↔ x = a := by
  rw [← Char.toNat_inj, ← Char.toNat_inj, toNat_ofUInt8]
  by_cases hx : x.toNat < 128
  · rw [utf8EncodeChar_of_lt hx, List.mem_singleton] at hb
    rw [hb, UInt8.toNat_ofNat', Nat.mod_eq_of_lt (by omega)]
  · have hle := le_toNat_of_mem_utf8EncodeChar (by omega) hb
    omega

/-! ## Cursors in front of characters -/

/-- The cursor is in front of the characters, which are the rest of the text. -/
def Cursor.Before (text : String) (c : Cursor) (s : List Char) : Prop :=
  ∃ past, text.toList = past ++ s ∧ c.pos = (bytes past).length

section Before

variable {text : String} {c c' : Cursor} {s r : List Char} {x : Char}

theorem before_start (text : String) (depth : Nat) :
    (⟨0, depth⟩ : Cursor).Before text text.toList :=
  ⟨[], rfl, rfl⟩

/-- The number of nested calls does not matter. -/
theorem Cursor.Before.of_pos (h : c.Before text s) (hpos : c'.pos = c.pos) : c'.Before text s := by
  obtain ⟨past, htext, hc⟩ := h
  exact ⟨past, htext, hpos.trans hc⟩

theorem Cursor.Before.pos_add (h : c.Before text s) :
    c.pos + (bytes s).length = text.utf8ByteSize := by
  obtain ⟨past, htext, hpos⟩ := h
  rw [← String.ofList_toList (s := text), ← length_bytes, htext, bytes_append, List.length_append,
    hpos]

theorem Cursor.Before.boundary (h : c.Before text s) : Boundary text c.pos := by
  obtain ⟨past, htext, hpos⟩ := h
  refine String.Pos.Raw.isValid_iff_exists_append.2 ⟨String.ofList past, String.ofList s, ?_, ?_⟩
  · rw [← String.ofList_append, ← htext, String.ofList_toList]
  · rw [hpos, length_bytes]
    rfl

/-- Behind some of the characters, the cursor is in front of the others. -/
theorem Cursor.Before.append {w : List Char} (h : c.Before text (w ++ r)) :
    (⟨c.pos + (bytes w).length, c.depth⟩ : Cursor).Before text r := by
  obtain ⟨past, htext, hpos⟩ := h
  exact ⟨past ++ w, by rw [htext, List.append_assoc], by simp [hpos]⟩

/-- The bytes that the scanner looks at are those of the characters. -/
theorem Cursor.Before.nextByte (h : c.Before text s) :
    Scan.nextByte text c.pos = (bytes s).head?.map Char.ofUInt8 := by
  obtain ⟨past, htext, hpos⟩ := h
  rw [nextByte_eq, htext, bytes_append, hpos, List.getElem?_append_right (Nat.le_refl _),
    Nat.sub_self, List.head?_eq_getElem?]

/-- In front of a character, there is a byte that is the same as the character below 128. -/
theorem Cursor.Before.nextByte_cons (h : c.Before text (x :: s)) :
    ∃ y, Scan.nextByte text c.pos = some y ∧ ∀ a : Char, a.toNat < 128 → (y = a ↔ x = a) := by
  obtain ⟨b, bs, hx⟩ := List.exists_cons_of_ne_nil (String.utf8EncodeChar_ne_nil (c := x))
  refine ⟨Char.ofUInt8 b, ?_, fun a ha => ofUInt8_eq_iff ha (by simp [hx])⟩
  rw [h.nextByte, bytes_cons, hx]
  rfl

/-- The next byte is a certain character below 128 exactly if the next character is this one. -/
theorem Cursor.Before.nextByte_eq_iff (h : c.Before text s) {a : Char} (ha : a.toNat < 128) :
    Scan.nextByte text c.pos = some a ↔ s.head? = some a := by
  cases s with
  | nil => simp [h.nextByte]
  | cons x s =>
    obtain ⟨y, hy, hsame⟩ := h.nextByte_cons
    simp [hy, hsame a ha]

theorem Cursor.Before.nextByte_eq_none_iff (h : c.Before text s) :
    Scan.nextByte text c.pos = none ↔ s = [] := by
  rw [h.nextByte]
  cases s with
  | nil => simp
  | cons x s => simp

/-- The end of the text comes when there are no more characters. -/
theorem Cursor.Before.le_pos_iff (h : c.Before text s) : text.utf8ByteSize ≤ c.pos ↔ s = [] := by
  have hpos := h.pos_add
  cases s with
  | nil => simp at hpos ⊢; omega
  | cons x s =>
    have hx := x.utf8Size_pos
    simp at hpos ⊢; omega

/-- What is in front of a cursor is part of the text, the shorter the further behind. -/
theorem Cursor.Before.exists_append (h : c.Before text s) (h' : c'.Before text r)
    (hlength : r.length ≤ s.length) : ∃ w, s = w ++ r ∧ c'.pos = c.pos + (bytes w).length := by
  have hpos := h.pos_add
  have hpos' := h'.pos_add
  obtain ⟨past, htext, -⟩ := h
  obtain ⟨past', htext', -⟩ := h'
  obtain ⟨w, rfl⟩ := List.suffix_of_suffix_length_le ⟨past', htext'.symm⟩ ⟨past, htext.symm⟩ hlength
  refine ⟨w, rfl, ?_⟩
  rw [bytes_append, List.length_append] at hpos
  omega

theorem Cursor.Before.pos_lt (h : c.Before text s) (h' : c'.Before text r)
    (hlength : r.length < s.length) : c.pos < c'.pos := by
  obtain ⟨w, rfl, hpos⟩ := h.exists_append h' hlength.le
  cases w with
  | nil => simp at hlength
  | cons x w =>
    have hx := x.utf8Size_pos
    rw [bytes_cons, List.length_append, String.length_utf8EncodeChar] at hpos
    omega

/-- The slice of a text that writes some characters consists of these characters. -/
theorem Cursor.Before.charsBetween {w : List Char} (h : c.Before text (w ++ r)) :
    Scan.charsBetween text c.pos (c.pos + (bytes w).length) = some w := by
  have hbounds : c.pos ≤ c.pos + (bytes w).length ∧ Boundary text c.pos ∧
      Boundary text (c.pos + (bytes w).length) :=
    ⟨Nat.le_add_right _ _, h.boundary, h.append.boundary⟩
  obtain ⟨past, htext, hpos⟩ := h
  have hbytes : text.toByteArray.extract c.pos (c.pos + (bytes w).length) =
      (bytes w).toByteArray := by
    rw [toByteArray_eq_bytes, htext, bytes_append, bytes_append, List.toByteArray_append,
      List.toByteArray_append]
    have hsize : c.pos = (bytes past).toByteArray.size := by rw [hpos, List.size_toByteArray]
    exact (ByteArray.extract_append_size_add' (i := 0) hsize).trans
      (ByteArray.extract_append_eq_left List.size_toByteArray.symm)
  have hchars : String.extract (⟨⟨c.pos⟩, hbounds.2.1⟩ : text.Pos) ⟨⟨_⟩, hbounds.2.2⟩ =
      String.ofList w := by
    rw [← String.toByteArray_inj, String.toByteArray_extract,
      toByteArray_eq_bytes (String.ofList w), String.toList_ofList]
    exact hbytes
  rw [Scan.charsBetween, dif_pos hbounds, hchars, String.toList_ofList]

end Before

end Unerase.Scan
