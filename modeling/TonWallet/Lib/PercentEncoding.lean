/-
Percent-encoding of texts in UTF-16: the bytes of the characters that are not written as they are stand as pairs of
hexadecimal digits, and are put together again before they are read.
-/
import TonWallet.Lib.Unicode

namespace Lib

/-! ## Writing -/

/-- The digit of a nibble. -/
def hexUnit (n : Nat) : UInt16 := UInt16.ofNat (if n < 10 then 0x30 + n else 0x37 + n)

def escapeByte (b : UInt8) : List UInt16 := [0x25, hexUnit (b.toNat / 16), hexUnit (b.toNat % 16)]

/-- A text of which the characters are written as they are, or else their bytes are escaped. -/
def percentEncode (safe : Char → Bool) (s : List Char) : List UInt16 :=
  s.flatMap fun c => if safe c then utf16Char c else (String.utf8EncodeChar c).flatMap escapeByte

/-! ## Reading -/

/-- The nibble of a digit. -/
def hexNibble (u : UInt16) : Option Nat :=
  if 0x30 ≤ u ∧ u ≤ 0x39 then some (u.toNat - 0x30)
  else if 0x41 ≤ u ∧ u ≤ 0x46 then some (u.toNat - 0x37)
  else if 0x61 ≤ u ∧ u ≤ 0x66 then some (u.toNat - 0x57)
  else none

def hexByte (u v : UInt16) : Option UInt8 :=
  match hexNibble u, hexNibble v with
  | some x, some y => some (UInt8.ofNat (16 * x + y))
  | _, _ => none

/-- The text of bytes that have been put together. -/
def flushBytes (malformed : List UInt8 → Nat) (bytes : List UInt8) : List UInt16 := utf16 (decodeUtf8 malformed bytes)

/-- What is not escaped is read as it is, but for a plus that may stand for a space. -/
def plainUnit (plus : Bool) (u : UInt16) : UInt16 := if plus && u == 0x2B then 0x20 else u

/-- The text of what is left and of the bytes that have been read; an escape without digits is a replacement. -/
def percentDecodeFrom (malformed : List UInt8 → Nat) (plus : Bool) : List UInt16 → List UInt8 → List UInt16
  | u :: a :: b :: s, bytes =>
    if u = 0x25 then
      match hexByte a b with
      | some byte => percentDecodeFrom malformed plus s (bytes ++ [byte])
      | none => flushBytes malformed bytes ++ 0xFFFD :: percentDecodeFrom malformed plus (a :: b :: s) []
    else flushBytes malformed bytes ++ plainUnit plus u :: percentDecodeFrom malformed plus (a :: b :: s) []
  | u :: s, bytes =>
    flushBytes malformed bytes ++ (if u = 0x25 then 0xFFFD else plainUnit plus u) :: percentDecodeFrom malformed plus s []
  | [], bytes => flushBytes malformed bytes

def percentDecode (malformed : List UInt8 → Nat) (plus : Bool) (s : List UInt16) : List UInt16 :=
  percentDecodeFrom malformed plus s []

/-! ## Reading what is written -/

section Decode

variable {malformed : List UInt8 → Nat} {plus : Bool}

theorem flushBytes_utf8 (s : List Char) : flushBytes malformed (utf8 s) = utf16 s := by
  rw [flushBytes, decodeUtf8_utf8]

/-- A unit that is not escaped. -/
theorem percentDecodeFrom_cons {u : UInt16} (hu : u ≠ 0x25) (s : List UInt16) (bytes : List UInt8) :
    percentDecodeFrom malformed plus (u :: s) bytes =
      flushBytes malformed bytes ++ plainUnit plus u :: percentDecodeFrom malformed plus s [] := by
  match s with
  | [] => rw [percentDecodeFrom, if_neg hu]; simp
  | [_] => rw [percentDecodeFrom, if_neg hu]; simp
  | _ :: _ :: _ => rw [percentDecodeFrom, if_neg hu]

theorem hexByte_hexUnit (b : UInt8) : hexByte (hexUnit (b.toNat / 16)) (hexUnit (b.toNat % 16)) = some b := by
  have hall : ∀ n : Fin 256, hexByte (hexUnit (n.1 / 16)) (hexUnit (n.1 % 16)) = some (UInt8.ofNat n.1) := by
    decide +kernel
  have hb := hall ⟨b.toNat, b.toNat_lt⟩
  rwa [UInt8.ofNat_toNat] at hb

theorem percentDecodeFrom_escapes (bs : List UInt8) (s : List UInt16) (bytes : List UInt8) :
    percentDecodeFrom malformed plus (bs.flatMap escapeByte ++ s) bytes = percentDecodeFrom malformed plus s (bytes ++ bs) := by
  induction bs generalizing bytes with
  | nil => rw [List.flatMap_nil, List.nil_append, List.append_nil]
  | cons b bs ih =>
    rw [List.flatMap_cons, List.append_assoc]
    show percentDecodeFrom malformed plus (0x25 :: hexUnit (b.toNat / 16) :: hexUnit (b.toNat % 16) :: (_ ++ s)) bytes = _
    rw [percentDecodeFrom, if_pos rfl, hexByte_hexUnit]
    dsimp only
    rw [ih, List.append_assoc, List.singleton_append]

/-- Units that stand for themselves are read as they are. -/
theorem percentDecodeFrom_plain {s : List UInt16} (hs : ∀ u ∈ s, u ≠ 0x25 ∧ plainUnit plus u = u) :
    percentDecode malformed plus s = s := by
  unfold percentDecode
  induction s with
  | nil => rfl
  | cons u s ih =>
    obtain ⟨hu, hplain⟩ := hs u List.mem_cons_self
    rw [percentDecodeFrom_cons hu, hplain, ih fun v hv => hs v (List.mem_cons_of_mem u hv)]
    rfl

/-- A text is read back if the characters that are written as they are stand for themselves. -/
theorem percentDecode_percentEncode {safe : Char → Bool}
    (hsafe : ∀ c, safe c = true → ∃ u, utf16Char c = [u] ∧ u ≠ 0x25 ∧ plainUnit plus u = u) (s : List Char) :
    percentDecode malformed plus (percentEncode safe s) = utf16 s := by
  have hfrom (p s : List Char) :
      percentDecodeFrom malformed plus (percentEncode safe s) (utf8 p) = utf16 (p ++ s) := by
    induction s generalizing p with
    | nil =>
      rw [List.append_nil]
      exact flushBytes_utf8 p
    | cons c s ih =>
      rw [percentEncode, List.flatMap_cons]
      by_cases hc : safe c = true
      · obtain ⟨u, hunits, hu, hplain⟩ := hsafe c hc
        have hrest := ih []
        rw [utf8_nil, List.nil_append] at hrest
        rw [if_pos hc, hunits, List.singleton_append, percentDecodeFrom_cons hu, flushBytes_utf8, hplain]
        show utf16 p ++ u :: percentDecodeFrom malformed plus (percentEncode safe s) [] = _
        rw [hrest, utf16_append, utf16_cons, hunits]
        rfl
      · rw [if_neg hc, percentDecodeFrom_escapes]
        have hbytes : utf8 p ++ String.utf8EncodeChar c = utf8 (p ++ [c]) := by rw [utf8_append, utf8_cons, utf8_nil,
          List.append_nil]
        rw [hbytes]
        exact (ih (p ++ [c])).trans (by rw [List.append_assoc]; rfl)
  exact hfrom [] s

/-- Escapes are made of a percent sign, digits and capital letters. -/
theorem mem_escapeByte {b : UInt8} {u : UInt16} (h : u ∈ escapeByte b) :
    u = 0x25 ∨ (0x30 ≤ u ∧ u ≤ 0x39) ∨ 0x41 ≤ u ∧ u ≤ 0x46 := by
  have hdigit : ∀ n : Fin 16, (0x30 ≤ hexUnit n.1 ∧ hexUnit n.1 ≤ 0x39) ∨ 0x41 ≤ hexUnit n.1 ∧ hexUnit n.1 ≤ 0x46 := by
    decide
  have hb := b.toNat_lt
  simp only [escapeByte, List.mem_cons, List.not_mem_nil, or_false] at h
  rcases h with rfl | rfl | rfl
  · exact .inl rfl
  · exact .inr (hdigit ⟨b.toNat / 16, by omega⟩)
  · exact .inr (hdigit ⟨b.toNat % 16, by omega⟩)

end Decode

end Lib
