/-
Texts of bytes: base64 as it is read and written by `common/util.cpp`, and the checksum `crc16`. The reader takes both
alphabets at once, takes an equals sign inside of a text for a digit, and leaves the end of its buffer as it is when
the text is padded.
-/
import TonWallet.Lib.Base64
import TonWallet.Lib.Bits
import Mathlib.Data.Nat.Bitwise

namespace TonWallet.Td

open Lib

/-! ## Base64 -/

/-- `buff_base64_encode`, of at least two bytes. -/
def buffBase64Encode (raw : List UInt8) (base64Url : Bool) : List Char :=
  let digits := (if base64Url then Base64.url else Base64.standard).encode raw
  digits ++ List.replicate ((4 - digits.length % 4) % 4) '='

/-- `base64_dec_table`: the digit of a character, with a bit for each alphabet. -/
def base64DecTable : List Nat := [
  0, 0, 0, 0, 0, 0, 0, 0, 0, 0, 0, 0, 0, 0, 0, 0,
  0, 0, 0, 0, 0, 0, 0, 0, 0, 0, 0, 0, 0, 0, 0, 0,
  0, 0, 0, 0, 0, 0, 0, 0, 0, 0, 0, 0x7e, 0, 0xbe, 0, 0x7f,
  0xf4, 0xf5, 0xf6, 0xf7, 0xf8, 0xf9, 0xfa, 0xfb, 0xfc, 0xfd, 0, 0, 0, 1, 0, 0,
  0, 0xc0, 0xc1, 0xc2, 0xc3, 0xc4, 0xc5, 0xc6, 0xc7, 0xc8, 0xc9, 0xca, 0xcb, 0xcc, 0xcd, 0xce,
  0xcf, 0xd0, 0xd1, 0xd2, 0xd3, 0xd4, 0xd5, 0xd6, 0xd7, 0xd8, 0xd9, 0, 0, 0, 0, 0xbf,
  0, 0xda, 0xdb, 0xdc, 0xdd, 0xde, 0xdf, 0xe0, 0xe1, 0xe2, 0xe3, 0xe4, 0xe5, 0xe6, 0xe7, 0xe8,
  0xe9, 0xea, 0xeb, 0xec, 0xed, 0xee, 0xef, 0xf0, 0xf1, 0xf2, 0xf3, 0, 0, 0, 0, 0]

/-- A digit, and whether any character will do for it; `none`: the text is refused. -/
def base64Digit (mode : Nat) (padding : Bool) (c : Char) : Option Nat :=
  let z := base64DecTable.getD c.toNat 0
  if z &&& mode = 0 ∧ z ≠ 1 ∧ ¬ padding then none else some (z &&& 0x3f)

/-- The groups of four characters; the last one ends in `q` characters of padding. -/
def base64Groups (mode q : Nat) : List Char → Option (List UInt8)
  | s :: t :: u :: v :: cs => do
    let last := cs.isEmpty
    let s ← base64Digit mode (last && 4 ≤ 0 + q) s
    let t ← base64Digit mode (last && 4 ≤ 1 + q) t
    let u ← base64Digit mode (last && 4 ≤ 2 + q) u
    let v ← base64Digit mode (last && 4 ≤ 3 + q) v
    let x := ((s * 64 + t) * 64 + u) * 64 + v
    let bytes := [UInt8.ofNat (x / 65536), UInt8.ofNat (x / 256), UInt8.ofNat x]
    if last then return bytes.take (3 - q)
    return bytes ++ (← base64Groups mode q cs)
  | _ => none

/-- The number of equals signs at the end of a text that count. -/
def base64Padding (encoded : List Char) : Nat := match encoded.reverse with
  | '=' :: '=' :: _ => 2
  | '=' :: _ => 1
  | _ => 0

theorem base64Padding_le (s : List Char) : base64Padding s ≤ 2 := by
  unfold base64Padding
  split <;> decide

/-- `buff_base64_decode`: the buffer afterwards. -/
def buffBase64Decode (buffer : List UInt8) (encoded : List Char) (allowBase64Url : Bool) : Option (List UInt8) :=
  if encoded.length % 4 ≠ 0 ∨ encoded = [] then none
  else if buffer.length + base64Padding encoded < encoded.length / 4 * 3 then none
  else do
    let bytes ← base64Groups (if allowBase64Url then 0xc0 else 0x40) (base64Padding encoded) encoded
    return bytes ++ buffer.drop bytes.length

/-- What the table has for the symbols of an alphabet. -/
def base64Entries (base64Url : Bool) : List Nat :=
  (List.range 62).map (0xc0 + ·) ++ if base64Url then [0xbe, 0xbf] else [0x7e, 0x7f]

theorem base64DecTable_symbols (base64Url : Bool) :
    (if base64Url then Base64.url else Base64.standard).symbols.map (fun c => base64DecTable.getD c.toNat 0) =
      base64Entries base64Url := by
  have hcodes (cs : List Char) : cs.map (fun c => base64DecTable.getD c.toNat 0) =
      (cs.map Char.toNat).map (base64DecTable.getD · 0) := by
    rw [List.map_map]
    rfl
  cases base64Url with
  | false =>
    rw [if_neg Bool.false_ne_true, hcodes, Base64.standard_toNat]
    decide +kernel
  | true =>
    rw [if_pos rfl, hcodes, Base64.url_toNat]
    decide +kernel

theorem base64DecTable_symbol (base64Url : Bool) {d : Nat} (hd : d < 64) :
    base64DecTable.getD ((if base64Url then Base64.url else Base64.standard).symbol d).toNat 0 =
      (base64Entries base64Url).getD d 0 := by
  rw [← base64DecTable_symbols]
  generalize (if base64Url then Base64.url else Base64.standard) = table
  have hlength : d < table.symbols.length := table.length_eq.symm ▸ hd
  have hmap : d < (table.symbols.map fun c => base64DecTable.getD c.toNat 0).length := by rwa [List.length_map]
  rw [Base64.Alphabet.symbol, List.getD_eq_getElem _ _ hlength, List.getD_eq_getElem _ _ hmap, List.getElem_map]

/-- An entry has its digit, and the bits of the alphabets that its symbol is in. -/
theorem base64Entries_bits (base64Url : Bool) {d : Nat} (hd : d < 64) :
    (base64Entries base64Url).getD d 0 &&& 0x3f = d ∧ (base64Entries base64Url).getD d 0 &&& 0xc0 ≠ 0 ∧
      (base64Entries false).getD d 0 &&& 0x40 ≠ 0 := by
  revert d base64Url
  decide +kernel

/-- Digits are read back from either alphabet. -/
theorem base64Digit_symbol {d : Nat} (hd : d < 64) (base64Url padding : Bool) :
    base64Digit 0xc0 padding ((if base64Url then Base64.url else Base64.standard).symbol d) = some d := by
  obtain ⟨hdigit, hmode, -⟩ := base64Entries_bits base64Url hd
  unfold base64Digit
  dsimp only
  rw [base64DecTable_symbol base64Url hd, if_neg (fun h => hmode h.1), hdigit]

/-- Whole groups are read back. -/
theorem base64Groups_encode (base64Url : Bool) {bytes : List UInt8} (hne : bytes ≠ []) (hlen : bytes.length % 3 = 0) :
    base64Groups 0xc0 0 ((if base64Url then Base64.url else Base64.standard).encode bytes) = some bytes := by
  have hdigit {d : Nat} (hd : d < 64) (padding : Bool) := base64Digit_symbol hd base64Url padding
  generalize (if base64Url then Base64.url else Base64.standard) = A at hdigit
  induction bytes using Base64.digits.induct with
  | case1 => exact absurd rfl hne
  | case2 a => cases hlen
  | case3 a b => cases hlen
  | case4 a b c bytes ih =>
    have ha := a.toNat_lt
    have hb := b.toNat_lt
    have hc := c.toNat_lt
    have h3 : bytes.length % 3 = 0 := by
      simp only [List.length_cons] at hlen
      omega
    simp only [Base64.Alphabet.encode, Base64.digits, List.map_cons, base64Groups]
    rw [hdigit (by omega), hdigit (by omega), hdigit (by omega), hdigit (by omega)]
    simp only [Option.bind_eq_bind, Option.bind_some]
    have hx : ((a.toNat / 4 * 64 + (a.toNat % 4 * 16 + b.toNat / 16)) * 64 + (b.toNat % 16 * 4 + c.toNat / 64)) * 64 +
        c.toNat % 64 = a.toNat * 65536 + b.toNat * 256 + c.toNat := by omega
    have hfirst : UInt8.ofNat ((a.toNat * 65536 + b.toNat * 256 + c.toNat) / 65536) = a :=
      Base64.ofNat_of_eq_toNat (by omega)
    have hsecond : UInt8.ofNat ((a.toNat * 65536 + b.toNat * 256 + c.toNat) / 256) = b := by
      apply UInt8.toNat_inj.1
      rw [UInt8.toNat_ofNat']
      omega
    have hthird : UInt8.ofNat (a.toNat * 65536 + b.toNat * 256 + c.toNat) = c := by
      apply UInt8.toNat_inj.1
      rw [UInt8.toNat_ofNat']
      omega
    rw [hx, hfirst, hsecond, hthird]
    cases bytes with
    | nil => rfl
    | cons d bytes =>
      have hrest := ih (List.cons_ne_nil d bytes) h3
      have hlast : ((Base64.digits (d :: bytes)).map A.symbol).isEmpty = false := by
        rw [List.isEmpty_eq_false_iff_exists_mem]
        have hpos : 0 < ((Base64.digits (d :: bytes)).map A.symbol).length := by
          rw [List.length_map, Base64.length_digits, List.length_cons]
          omega
        exact List.exists_mem_of_length_pos hpos
      rw [hlast, ← Base64.Alphabet.encode, hrest]
      rfl

theorem base64Padding_eq_zero {encoded : List Char} (h : encoded.getLast? ≠ some '=') : base64Padding encoded = 0 := by
  have hhead (c : Char) (cs : List Char) (hrev : encoded.reverse = c :: cs) : c ≠ '=' := by
    rintro rfl
    apply h
    rw [← List.head?_reverse, hrev]
    rfl
  unfold base64Padding
  split
  · next hrev => exact absurd rfl (hhead _ _ hrev)
  · next hrev => exact absurd rfl (hhead _ _ hrev)
  · rfl

/-- No symbol is an equals sign. -/
theorem equals_not_mem_encode (base64Url : Bool) (bytes : List UInt8) :
    '=' ∉ (if base64Url then Base64.url else Base64.standard).encode bytes := by
  intro hmem
  have hentry := List.mem_map_of_mem (f := fun c => base64DecTable.getD c.toNat 0) (Base64.Alphabet.encode_mem _ _ hmem)
  rw [base64DecTable_symbols, show base64DecTable.getD '='.toNat 0 = 1 from rfl] at hentry
  have hnone : ∀ base64Url, 1 ∉ base64Entries base64Url := by decide
  exact hnone base64Url hentry

theorem base64Padding_encode (base64Url : Bool) (bytes : List UInt8) :
    base64Padding ((if base64Url then Base64.url else Base64.standard).encode bytes) = 0 :=
  base64Padding_eq_zero fun h => equals_not_mem_encode base64Url bytes (List.mem_of_mem_getLast? h)

/-- Whole groups are written without padding. -/
theorem buffBase64Encode_eq (base64Url : Bool) {bytes : List UInt8} (hlen : bytes.length % 3 = 0) :
    buffBase64Encode bytes base64Url = (if base64Url then Base64.url else Base64.standard).encode bytes := by
  unfold buffBase64Encode
  dsimp only
  rw [Base64.Alphabet.length_encode, show (4 - (bytes.length * 4 + 2) / 3 % 4) % 4 = 0 by omega, List.replicate_zero,
    List.append_nil]

/-- A buffer that is filled by whole groups is read back. -/
theorem buffBase64Decode_encode (base64Url : Bool) {bytes buffer : List UInt8} (hne : bytes ≠ [])
    (hlen : bytes.length % 3 = 0) (hbuffer : buffer.length = bytes.length) :
    buffBase64Decode buffer (buffBase64Encode bytes base64Url) true = some bytes := by
  have hdigits : ((if base64Url then Base64.url else Base64.standard).encode bytes).length = bytes.length / 3 * 4 := by
    rw [Base64.Alphabet.length_encode]
    omega
  have hpos : 0 < bytes.length := List.length_pos_iff.2 hne
  have hencoded : (if base64Url then Base64.url else Base64.standard).encode bytes ≠ [] := by
    rw [← List.length_pos_iff, hdigits]
    omega
  unfold buffBase64Decode
  rw [buffBase64Encode_eq base64Url hlen, base64Padding_encode, hdigits, if_neg (by rw [not_or]; exact ⟨by omega, hencoded⟩), if_neg (by omega), if_pos rfl,
    base64Groups_encode base64Url hne hlen]
  simp [← hbuffer]

/-- Each group makes three bytes, the last one fewer if it is padded. -/
theorem length_base64Groups {mode q : Nat} (hq : q ≤ 3) {encoded : List Char} {bytes : List UInt8}
    (h : base64Groups mode q encoded = some bytes) : bytes.length + q = encoded.length / 4 * 3 := by
  induction encoded using base64Groups.induct generalizing bytes with
  | case1 s t u v cs ih =>
    unfold base64Groups at h
    obtain ⟨s', -, h⟩ := Option.bind_eq_some_iff.1 h
    obtain ⟨t', -, h⟩ := Option.bind_eq_some_iff.1 h
    obtain ⟨u', -, h⟩ := Option.bind_eq_some_iff.1 h
    obtain ⟨v', -, h⟩ := Option.bind_eq_some_iff.1 h
    dsimp only at h
    split at h
    · next hlast =>
      cases h
      rw [List.isEmpty_iff] at hlast
      rw [hlast, List.length_take]
      simp only [List.length_cons, List.length_nil]
      omega
    · obtain ⟨rest, hrest, h⟩ := Option.bind_eq_some_iff.1 h
      cases h
      have hlen := ih hrest
      simp only [List.length_append, List.length_cons, List.length_nil] at hlen ⊢
      omega
  | case2 encoded hshort =>
    unfold base64Groups at h
    split at h
    · next s t u v cs => exact absurd rfl (hshort s t u v cs)
    · cases h

/-- Nothing of a buffer is left as it was when the text is not padded. -/
theorem buffBase64Decode_unpadded {buffer : List UInt8} {encoded : List Char} (hlen : encoded.length % 4 = 0)
    (hne : encoded ≠ []) (hbuffer : buffer.length = encoded.length / 4 * 3) (hpad : base64Padding encoded = 0) :
    buffBase64Decode buffer encoded true = base64Groups 0xc0 0 encoded := by
  unfold buffBase64Decode
  rw [if_neg (by rw [not_or]; exact ⟨by omega, hne⟩), if_neg (by omega), hpad, if_pos rfl]
  cases h : base64Groups 0xc0 0 encoded with
  | none => rfl
  | some bytes =>
    have hbytes := length_base64Groups (Nat.zero_le 3) h
    show some (bytes ++ buffer.drop bytes.length) = _
    rw [List.drop_of_length_le (by omega), List.append_nil]

/-- The digit that a character is taken for. -/
def base64Value (c : Char) : Nat := base64DecTable.getD c.toNat 0 &&& 0x3f

theorem base64Value_lt (c : Char) : base64Value c < 64 := Nat.and_lt_two_pow (n := 6) _ (by decide)

theorem base64Digit_eq {mode : Nat} {padding : Bool} {c : Char} {d : Nat} (h : base64Digit mode padding c = some d) :
    d = base64Value c := by
  unfold base64Digit at h
  dsimp only at h
  split at h
  · cases h
  · exact (Option.some.inj h).symm

/-- The bits of a text, six for each character. -/
def base64Bits (encoded : List Char) : List Bool := encoded.flatMap fun c => natToBits 6 (base64Value c)

theorem length_base64Bits (encoded : List Char) : (base64Bits encoded).length = 6 * encoded.length := by
  induction encoded with
  | nil => rfl
  | cons c cs ih =>
    have hcons : base64Bits (c :: cs) = natToBits 6 (base64Value c) ++ base64Bits cs := rfl
    rw [hcons, List.length_append, length_natToBits, ih, List.length_cons]
    omega

theorem base64Bits_append (xs ys : List Char) : base64Bits (xs ++ ys) = base64Bits xs ++ base64Bits ys :=
  List.flatMap_append

/-- Four digits have the bits of three bytes. -/
theorem bits_of_group {s t u v : Nat} (ht : t < 64) (hu : u < 64) (hv : v < 64) :
    let x := ((s * 64 + t) * 64 + u) * 64 + v
    bytesToBits [UInt8.ofNat (x / 65536), UInt8.ofNat (x / 256), UInt8.ofNat x] =
      natToBits 6 s ++ (natToBits 6 t ++ (natToBits 6 u ++ natToBits 6 v)) := by
  intro x
  have hbytes : bytesToBits [UInt8.ofNat (x / 65536), UInt8.ofNat (x / 256), UInt8.ofNat x] = natToBits 24 x := by
    rw [natToBits_add 8 16, natToBits_add 8 8, bytesToBits_cons, bytesToBits_cons, bytesToBits_cons, UInt8.toNat_ofNat',
      UInt8.toNat_ofNat', UInt8.toNat_ofNat', natToBits_mod, natToBits_mod, natToBits_mod]
    show _ ++ (_ ++ (_ ++ [])) = _
    rw [List.append_nil]
    rfl
  have hdigit (a b : Nat) (hb : b < 64) : natToBits 6 (a * 64 + b) = natToBits 6 b := by
    rw [← natToBits_mod 6, ← natToBits_mod 6 b]
    congr 1
    omega
  rw [hbytes, natToBits_add 6 18, natToBits_add 6 12, natToBits_add 6 6]
  rw [show x / 2 ^ 18 = s by omega, show x / 2 ^ 12 = s * 64 + t by omega, show x / 2 ^ 6 = (s * 64 + t) * 64 + u by omega,
    hdigit s t ht, hdigit _ u hu, hdigit _ v hv]

/-- The bytes that are read have the bits of the text, as far as they go. -/
theorem bytesToBits_base64Groups {mode q : Nat} {encoded : List Char} {bytes : List UInt8}
    (h : base64Groups mode q encoded = some bytes) :
    bytesToBits bytes = (base64Bits encoded).take (8 * bytes.length) := by
  induction encoded using base64Groups.induct generalizing bytes with
  | case1 s t u v cs ih =>
    unfold base64Groups at h
    obtain ⟨s', hs, h⟩ := Option.bind_eq_some_iff.1 h
    obtain ⟨t', ht, h⟩ := Option.bind_eq_some_iff.1 h
    obtain ⟨u', hu, h⟩ := Option.bind_eq_some_iff.1 h
    obtain ⟨v', hv, h⟩ := Option.bind_eq_some_iff.1 h
    rw [base64Digit_eq hs, base64Digit_eq ht, base64Digit_eq hu, base64Digit_eq hv] at h
    have hgroup := bits_of_group (s := base64Value s) (base64Value_lt t) (base64Value_lt u) (base64Value_lt v)
    have hbits : base64Bits (s :: t :: u :: v :: cs) =
        (natToBits 6 (base64Value s) ++ (natToBits 6 (base64Value t) ++
          (natToBits 6 (base64Value u) ++ natToBits 6 (base64Value v)))) ++ base64Bits cs := by
      rw [List.append_assoc, List.append_assoc, List.append_assoc]
      rfl
    dsimp only at h hgroup
    rw [hbits, ← hgroup]
    generalize hx : ((base64Value s * 64 + base64Value t) * 64 + base64Value u) * 64 + base64Value v = x at h
    split at h
    · next hlast =>
      cases h
      rw [List.isEmpty_iff] at hlast
      have hlen : (List.take (3 - q) [UInt8.ofNat (x / 65536), UInt8.ofNat (x / 256), UInt8.ofNat x]).length = 3 - q := by
        rw [List.length_take]
        simp only [List.length_cons, List.length_nil]
        omega
      rw [hlen, hlast, show base64Bits [] = [] from rfl, List.append_nil, bytesToBits_take]
    · obtain ⟨rest, hrest, h⟩ := Option.bind_eq_some_iff.1 h
      cases h
      have hlen : 8 * ([UInt8.ofNat (x / 65536), UInt8.ofNat (x / 256), UInt8.ofNat x] ++ rest).length =
          (bytesToBits [UInt8.ofNat (x / 65536), UInt8.ofNat (x / 256), UInt8.ofNat x]).length + 8 * rest.length := by
        rw [length_bytesToBits, List.length_append, Nat.mul_add]
      rw [bytesToBits_append, ih hrest, hlen, List.take_length_add_append]
  | case2 encoded hshort =>
    unfold base64Groups at h
    split at h
    · next s t u v cs => exact absurd rfl (hshort s t u v cs)
    · cases h

/-! ## Checksums -/

def crc16Table : List Nat := [
  0x0000, 0x1021, 0x2042, 0x3063, 0x4084, 0x50a5, 0x60c6, 0x70e7, 0x8108, 0x9129, 0xa14a, 0xb16b, 0xc18c, 0xd1ad,
  0xe1ce, 0xf1ef, 0x1231, 0x0210, 0x3273, 0x2252, 0x52b5, 0x4294, 0x72f7, 0x62d6, 0x9339, 0x8318, 0xb37b, 0xa35a,
  0xd3bd, 0xc39c, 0xf3ff, 0xe3de, 0x2462, 0x3443, 0x0420, 0x1401, 0x64e6, 0x74c7, 0x44a4, 0x5485, 0xa56a, 0xb54b,
  0x8528, 0x9509, 0xe5ee, 0xf5cf, 0xc5ac, 0xd58d, 0x3653, 0x2672, 0x1611, 0x0630, 0x76d7, 0x66f6, 0x5695, 0x46b4,
  0xb75b, 0xa77a, 0x9719, 0x8738, 0xf7df, 0xe7fe, 0xd79d, 0xc7bc, 0x48c4, 0x58e5, 0x6886, 0x78a7, 0x0840, 0x1861,
  0x2802, 0x3823, 0xc9cc, 0xd9ed, 0xe98e, 0xf9af, 0x8948, 0x9969, 0xa90a, 0xb92b, 0x5af5, 0x4ad4, 0x7ab7, 0x6a96,
  0x1a71, 0x0a50, 0x3a33, 0x2a12, 0xdbfd, 0xcbdc, 0xfbbf, 0xeb9e, 0x9b79, 0x8b58, 0xbb3b, 0xab1a, 0x6ca6, 0x7c87,
  0x4ce4, 0x5cc5, 0x2c22, 0x3c03, 0x0c60, 0x1c41, 0xedae, 0xfd8f, 0xcdec, 0xddcd, 0xad2a, 0xbd0b, 0x8d68, 0x9d49,
  0x7e97, 0x6eb6, 0x5ed5, 0x4ef4, 0x3e13, 0x2e32, 0x1e51, 0x0e70, 0xff9f, 0xefbe, 0xdfdd, 0xcffc, 0xbf1b, 0xaf3a,
  0x9f59, 0x8f78, 0x9188, 0x81a9, 0xb1ca, 0xa1eb, 0xd10c, 0xc12d, 0xf14e, 0xe16f, 0x1080, 0x00a1, 0x30c2, 0x20e3,
  0x5004, 0x4025, 0x7046, 0x6067, 0x83b9, 0x9398, 0xa3fb, 0xb3da, 0xc33d, 0xd31c, 0xe37f, 0xf35e, 0x02b1, 0x1290,
  0x22f3, 0x32d2, 0x4235, 0x5214, 0x6277, 0x7256, 0xb5ea, 0xa5cb, 0x95a8, 0x8589, 0xf56e, 0xe54f, 0xd52c, 0xc50d,
  0x34e2, 0x24c3, 0x14a0, 0x0481, 0x7466, 0x6447, 0x5424, 0x4405, 0xa7db, 0xb7fa, 0x8799, 0x97b8, 0xe75f, 0xf77e,
  0xc71d, 0xd73c, 0x26d3, 0x36f2, 0x0691, 0x16b0, 0x6657, 0x7676, 0x4615, 0x5634, 0xd94c, 0xc96d, 0xf90e, 0xe92f,
  0x99c8, 0x89e9, 0xb98a, 0xa9ab, 0x5844, 0x4865, 0x7806, 0x6827, 0x18c0, 0x08e1, 0x3882, 0x28a3, 0xcb7d, 0xdb5c,
  0xeb3f, 0xfb1e, 0x8bf9, 0x9bd8, 0xabbb, 0xbb9a, 0x4a75, 0x5a54, 0x6a37, 0x7a16, 0x0af1, 0x1ad0, 0x2ab3, 0x3a92,
  0xfd2e, 0xed0f, 0xdd6c, 0xcd4d, 0xbdaa, 0xad8b, 0x9de8, 0x8dc9, 0x7c26, 0x6c07, 0x5c64, 0x4c45, 0x3ca2, 0x2c83,
  0x1ce0, 0x0cc1, 0xef1f, 0xff3e, 0xcf5d, 0xdf7c, 0xaf9b, 0xbfba, 0x8fd9, 0x9ff8, 0x6e17, 0x7e36, 0x4e55, 0x5e74,
  0x2e93, 0x3eb2, 0x0ed1, 0x1ef0]

def crc16 (data : List UInt8) : Nat :=
  let crc := data.foldl (fun (crc : Nat) c =>
    crc16Table.getD ((c.toNat ^^^ (crc >>> 8)) &&& 0xff) 0 ^^^ (crc <<< 8) % 2 ^ 32) 0
  crc % 2 ^ 16

end TonWallet.Td
