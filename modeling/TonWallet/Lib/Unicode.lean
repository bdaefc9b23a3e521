/-
The encodings of texts: UTF-8, which is read with a replacement character for what is malformed, and UTF-16, where a
surrogate without its partner is replaced. Where both ends of a piece are characters, the encodings of a text are put
together of those of its pieces.
-/
import Mathlib.Data.List.Basic

namespace Lib

/-! ## UTF-8 -/

/-- The bytes of a text. -/
def utf8 (s : List Char) : List UInt8 := s.flatMap String.utf8EncodeChar

@[simp] theorem utf8_nil : utf8 [] = [] := rfl

@[simp] theorem utf8_cons (c : Char) (s : List Char) : utf8 (c :: s) = String.utf8EncodeChar c ++ utf8 s := rfl

@[simp] theorem utf8_append (s t : List Char) : utf8 (s ++ t) = utf8 s ++ utf8 t := List.flatMap_append

/-- The character that bytes begin with. -/
def decodeChar? (bytes : List UInt8) : Option Char := bytes.toByteArray.utf8DecodeChar? 0

theorem decodeChar?_iff {bytes : List UInt8} {c : Char} :
    decodeChar? bytes = some c ↔ ∃ rest, bytes = String.utf8EncodeChar c ++ rest := by
  constructor
  · intro h
    obtain ⟨l, hl⟩ := ByteArray.exists_of_utf8DecodeChar?_eq_some h
    refine ⟨l.data.toList, ?_⟩
    have hdata := congrArg (fun b => b.data.toList) hl
    simpa using hdata
  · rintro ⟨rest, rfl⟩
    have h := ByteArray.utf8DecodeChar?_utf8EncodeChar_append (b := rest.toByteArray) (c := c)
    rwa [← List.toByteArray_append] at h

/-- The character that stands for malformed bytes. -/
def replacement : Char := '\uFFFD'

/-- The text of bytes of which the first ones, so many as the number says, have been read already. Malformed bytes are
read as a replacement; how many bytes after the first one are read with it is left to `malformed`. -/
def decodeFrom (malformed : List UInt8 → Nat) : Nat → List UInt8 → List Char
  | _, [] => []
  | skip + 1, _ :: bytes => decodeFrom malformed skip bytes
  | 0, b :: bytes =>
    match decodeChar? (b :: bytes) with
    | some c => c :: decodeFrom malformed (c.utf8Size - 1) bytes
    | none => replacement :: decodeFrom malformed (malformed (b :: bytes)) bytes

def decodeUtf8 (malformed : List UInt8 → Nat) (bytes : List UInt8) : List Char := decodeFrom malformed 0 bytes

section Decode

variable {malformed : List UInt8 → Nat}

theorem decodeFrom_drop (skip : Nat) (bytes : List UInt8) :
    decodeFrom malformed skip bytes = decodeUtf8 malformed (bytes.drop skip) := by
  induction bytes generalizing skip with
  | nil => cases skip <;> rfl
  | cons b bytes ih =>
    cases skip with
    | zero => rfl
    | succ skip => exact ih skip

theorem decodeUtf8_nil : decodeUtf8 malformed [] = [] := rfl

/-- Bytes that begin with a character. -/
theorem decodeUtf8_encodeChar_append (c : Char) (rest : List UInt8) :
    decodeUtf8 malformed (String.utf8EncodeChar c ++ rest) = c :: decodeUtf8 malformed rest := by
  have hchar : decodeChar? (String.utf8EncodeChar c ++ rest) = some c := decodeChar?_iff.2 ⟨rest, rfl⟩
  have hlen := String.length_utf8EncodeChar c
  have hpos := Char.utf8Size_pos c
  rcases hbytes : String.utf8EncodeChar c with _ | ⟨b, bytes⟩
  · rw [hbytes] at hlen
    simp only [List.length_nil] at hlen
    omega
  · rw [hbytes] at hchar hlen
    rw [List.cons_append] at hchar ⊢
    rw [decodeUtf8, decodeFrom, hchar]
    dsimp only
    rw [decodeFrom_drop, ← hlen, List.length_cons, Nat.add_sub_cancel, List.drop_left]

/-- A text is read back from its bytes. -/
theorem decodeUtf8_utf8_append (s : List Char) (rest : List UInt8) :
    decodeUtf8 malformed (utf8 s ++ rest) = s ++ decodeUtf8 malformed rest := by
  induction s with
  | nil => rfl
  | cons c s ih => rw [utf8_cons, List.append_assoc, decodeUtf8_encodeChar_append, ih, List.cons_append]

theorem decodeUtf8_utf8 (s : List Char) : decodeUtf8 malformed (utf8 s) = s := by
  have h := @decodeUtf8_utf8_append malformed s []
  rwa [List.append_nil, decodeUtf8_nil, List.append_nil] at h

/-- Bytes that are read without a replacement are those of the text. -/
theorem utf8_of_decodeUtf8 {bytes : List UInt8} (h : replacement ∉ decodeUtf8 malformed bytes) :
    utf8 (decodeUtf8 malformed bytes) = bytes := by
  obtain ⟨n, hn⟩ : ∃ n, bytes.length ≤ n := ⟨_, Nat.le_refl _⟩
  induction n generalizing bytes with
  | zero =>
    rw [List.length_eq_zero_iff.1 (Nat.le_zero.1 hn)]
    rfl
  | succ n ih =>
    rcases bytes with _ | ⟨b, bytes⟩
    · rfl
    · rcases hchar : decodeChar? (b :: bytes) with _ | c
      · refine absurd ?_ h
        rw [decodeUtf8, decodeFrom, hchar]
        exact List.mem_cons_self
      · obtain ⟨rest, hrest⟩ := decodeChar?_iff.1 hchar
        have hpos := Char.utf8Size_pos c
        have hlen := congrArg List.length hrest
        rw [List.length_append, String.length_utf8EncodeChar] at hlen
        rw [hrest, decodeUtf8_encodeChar_append, List.mem_cons, not_or] at h
        rw [hrest, decodeUtf8_encodeChar_append, utf8_cons, ih h.2 (by omega)]

end Decode

/-! ## UTF-16 -/

def isHighSurrogate (u : UInt16) : Bool := 0xD800 ≤ u ∧ u < 0xDC00
def isLowSurrogate (u : UInt16) : Bool := 0xDC00 ≤ u ∧ u < 0xE000

/-- The code units of a character. -/
def utf16Char (c : Char) : List UInt16 :=
  if c.toNat < 0x10000 then [UInt16.ofNat c.toNat]
  else [UInt16.ofNat (0xD800 + (c.toNat - 0x10000) / 0x400), UInt16.ofNat (0xDC00 + (c.toNat - 0x10000) % 0x400)]

/-- The code units of a text. -/
def utf16 (s : List Char) : List UInt16 := s.flatMap utf16Char

@[simp] theorem utf16_nil : utf16 [] = [] := rfl

@[simp] theorem utf16_cons (c : Char) (s : List Char) : utf16 (c :: s) = utf16Char c ++ utf16 s := rfl

@[simp] theorem utf16_append (s t : List Char) : utf16 (s ++ t) = utf16 s ++ utf16 t := List.flatMap_append

/-- The character of a code unit by itself; a surrogate has none. -/
def unitChar (unpaired : Char) (u : UInt16) : Char :=
  if isHighSurrogate u || isLowSurrogate u then unpaired else Char.ofNat u.toNat

/-- The text of code units. -/
def decodeUtf16 (unpaired : Char) : List UInt16 → List Char
  | [] => []
  | [u] => [unitChar unpaired u]
  | u :: v :: units =>
    if isHighSurrogate u && isLowSurrogate v then
      Char.ofNat (0x10000 + (u.toNat - 0xD800) * 0x400 + (v.toNat - 0xDC00)) :: decodeUtf16 unpaired units
    else unitChar unpaired u :: decodeUtf16 unpaired (v :: units)

section Decode

variable {unpaired : Char}

theorem decodeUtf16_singleton (u : UInt16) : decodeUtf16 unpaired [u] = [unitChar unpaired u] := rfl

theorem decodeUtf16_cons_cons (u v : UInt16) (units : List UInt16) : decodeUtf16 unpaired (u :: v :: units) =
    if isHighSurrogate u && isLowSurrogate v then
      Char.ofNat (0x10000 + (u.toNat - 0xD800) * 0x400 + (v.toNat - 0xDC00)) :: decodeUtf16 unpaired units
    else unitChar unpaired u :: decodeUtf16 unpaired (v :: units) := rfl

theorem toNat_charOfNat {n : Nat} (h : n.isValidChar) : (Char.ofNat n).toNat = n := by
  rw [Char.ofNat, dif_pos h]
  rfl

/-- The units of a character: one that is no surrogate, or a pair of surrogates. -/
theorem utf16Char_cases (c : Char) :
    (∃ u, utf16Char c = [u] ∧ isHighSurrogate u = false ∧ isLowSurrogate u = false ∧ Char.ofNat u.toNat = c) ∨
      ∃ u v, utf16Char c = [u, v] ∧ isHighSurrogate u = true ∧ isLowSurrogate v = true ∧ isLowSurrogate u = false ∧
        Char.ofNat (0x10000 + (u.toNat - 0xD800) * 0x400 + (v.toNat - 0xDC00)) = c := by
  have hvalid : c.toNat < 0xD800 ∨ 0xDFFF < c.toNat ∧ c.toNat < 0x110000 := c.valid
  unfold utf16Char isHighSurrogate isLowSurrogate
  by_cases hsmall : c.toNat < 0x10000
  · left
    rw [if_pos hsmall]
    have hnat : (UInt16.ofNat c.toNat).toNat = c.toNat := UInt16.toNat_ofNat_of_lt' (by simpa using hsmall)
    refine ⟨_, rfl, ?_, ?_, ?_⟩
    · rw [decide_eq_false_iff_not, UInt16.le_iff_toNat_le, UInt16.lt_iff_toNat_lt, hnat]
      simp only [UInt16.reduceToNat]
      omega
    · rw [decide_eq_false_iff_not, UInt16.le_iff_toNat_le, UInt16.lt_iff_toNat_lt, hnat]
      simp only [UInt16.reduceToNat]
      omega
    · rw [hnat, Char.ofNat_toNat]
  · right
    rw [if_neg hsmall]
    have hhigh : (UInt16.ofNat (0xD800 + (c.toNat - 0x10000) / 0x400)).toNat = 0xD800 + (c.toNat - 0x10000) / 0x400 :=
      UInt16.toNat_ofNat_of_lt' (show _ < 65536 by omega)
    have hlow : (UInt16.ofNat (0xDC00 + (c.toNat - 0x10000) % 0x400)).toNat = 0xDC00 + (c.toNat - 0x10000) % 0x400 :=
      UInt16.toNat_ofNat_of_lt' (show _ < 65536 by omega)
    refine ⟨_, _, rfl, ?_, ?_, ?_, ?_⟩
    · rw [decide_eq_true_iff, UInt16.le_iff_toNat_le, UInt16.lt_iff_toNat_lt, hhigh]
      simp only [UInt16.reduceToNat]
      omega
    · rw [decide_eq_true_iff, UInt16.le_iff_toNat_le, UInt16.lt_iff_toNat_lt, hlow]
      simp only [UInt16.reduceToNat]
      omega
    · rw [decide_eq_false_iff_not, UInt16.le_iff_toNat_le, UInt16.lt_iff_toNat_lt, hhigh]
      simp only [UInt16.reduceToNat]
      omega
    · rw [hhigh, hlow, show 0x10000 + (0xD800 + (c.toNat - 0x10000) / 0x400 - 0xD800) * 0x400 +
        (0xDC00 + (c.toNat - 0x10000) % 0x400 - 0xDC00) = c.toNat by omega, Char.ofNat_toNat]

/-- Units that begin with a character. -/
theorem decodeUtf16_utf16Char_append (c : Char) (units : List UInt16) :
    decodeUtf16 unpaired (utf16Char c ++ units) = c :: decodeUtf16 unpaired units := by
  rcases utf16Char_cases c with ⟨u, hc, hhigh, hlow, hchar⟩ | ⟨u, v, hc, hhigh, hlow, -, hchar⟩
  · have hunit : unitChar unpaired u = c := by
      rw [unitChar, hhigh, hlow, Bool.or_false, if_neg Bool.false_ne_true, hchar]
    rw [hc]
    cases units with
    | nil =>
      rw [List.append_nil, decodeUtf16_singleton, hunit]
      rfl
    | cons v units =>
      rw [List.singleton_append, decodeUtf16_cons_cons, hhigh, Bool.false_and, if_neg Bool.false_ne_true, hunit]
  · rw [hc, List.cons_append, List.singleton_append, decodeUtf16_cons_cons, hhigh, hlow, Bool.and_true, if_pos rfl, hchar]

theorem decodeUtf16_utf16_append (s : List Char) (units : List UInt16) :
    decodeUtf16 unpaired (utf16 s ++ units) = s ++ decodeUtf16 unpaired units := by
  induction s with
  | nil => rfl
  | cons c s ih => rw [utf16_cons, List.append_assoc, decodeUtf16_utf16Char_append, ih, List.cons_append]

/-- A text is read back from its units. -/
theorem decodeUtf16_utf16 (s : List Char) : decodeUtf16 unpaired (utf16 s) = s := by
  have h := @decodeUtf16_utf16_append unpaired s []
  rwa [List.append_nil, decodeUtf16, List.append_nil] at h

/-- What does not begin with a low surrogate is read by itself. -/
theorem decodeUtf16_append {units rest : List UInt16} (h : ∀ u ∈ rest.head?, isLowSurrogate u = false) :
    decodeUtf16 unpaired (units ++ rest) = decodeUtf16 unpaired units ++ decodeUtf16 unpaired rest := by
  induction units using decodeUtf16.induct with
  | case1 => rfl
  | case2 u =>
    cases rest with
    | nil => rw [List.append_nil, decodeUtf16, decodeUtf16, List.append_nil]
    | cons v rest =>
      rw [List.singleton_append, decodeUtf16_cons_cons, h v rfl, Bool.and_false, if_neg Bool.false_ne_true]
      rfl
  | case3 u v units hpair ih =>
    rw [List.cons_append, List.cons_append, decodeUtf16_cons_cons, if_pos hpair, decodeUtf16_cons_cons, if_pos hpair, ih,
      List.cons_append]
  | case4 u v units hpair ih =>
    rw [List.cons_append, List.cons_append, decodeUtf16_cons_cons, if_neg hpair, decodeUtf16_cons_cons, if_neg hpair,
      ← List.cons_append, ih, List.cons_append]

/-- A text that is not empty does not begin with a low surrogate. -/
theorem head?_utf16 {s : List Char} (hs : s ≠ []) (units : List UInt16) :
    ∀ u ∈ (utf16 s ++ units).head?, isLowSurrogate u = false := by
  obtain ⟨c, s, rfl⟩ := List.exists_cons_of_ne_nil hs
  intro u hu
  rcases utf16Char_cases c with ⟨v, hc, -, hlow, -⟩ | ⟨v, w, hc, -, -, hlow, -⟩
  · rw [utf16_cons, hc] at hu
    cases hu
    exact hlow
  · rw [utf16_cons, hc] at hu
    cases hu
    exact hlow

/-- A text between units takes no part in their pairs. -/
theorem decodeUtf16_between {s : List Char} (hs : s ≠ []) (front units : List UInt16) :
    decodeUtf16 unpaired (front ++ utf16 s ++ units) =
      decodeUtf16 unpaired front ++ s ++ decodeUtf16 unpaired units := by
  rw [List.append_assoc, decodeUtf16_append (head?_utf16 hs units), decodeUtf16_utf16_append, List.append_assoc]

end Decode

end Lib
