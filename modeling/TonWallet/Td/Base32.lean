/-
Base32 (`td/utils/base64.cpp`) and the texts of ADNL addresses (`common/util.cpp`): 55 symbols for a byte, 32 bytes and a
checksum, of which the first symbol is always the same and left out.
-/
import TonWallet.Lib.Repack
import TonWallet.Td.Base64
import TonWallet.Vm.Cell

namespace TonWallet.Td

open Lib Lib.Repack TonWallet.Ton

/-! ## Base32 -/

def symbols32Lc : List Char := "abcdefghijklmnopqrstuvwxyz234567".toList
def symbols32Uc : List Char := "ABCDEFGHIJKLMNOPQRSTUVWXYZ234567".toList

/-- `base32_encode`. -/
def base32Encode (input : List UInt8) (upperCase : Bool) : List Char :=
  let symbols32 := if upperCase then symbols32Uc else symbols32Lc
  -- the digits, the word and the number of bits that are left in it
  let r := repack 8 5 0 0 (input.map UInt8.toNat)
  let out := if r.2.2 ≠ 0 then r.1 ++ [(r.2.1 <<< (5 - r.2.2)) % 2 ^ 32 &&& 31] else r.1
  out.map fun digit => symbols32.getD digit ' '

/-- `b32_char_to_value`; `none`: 32. -/
def b32CharToValue (c : Char) : Option Nat :=
  if c ∈ symbols32Lc then some (symbols32Lc.idxOf c) else if c ∈ symbols32Uc then some (symbols32Uc.idxOf c) else none

/-- The symbols of a text. -/
def base32Values (base32 : List Char) : Result (List Nat) := match base32.mapM b32CharToValue with
  | some values => .ok values
  | none => fail "Wrong character in the string"

/-- `base32_decode`. -/
def base32Decode (base32 : List Char) : Result (List UInt8) := do
  let values ← base32Values base32
  let r := repack 5 8 0 0 values
  failIf (r.2.1 &&& ((1 <<< r.2.2) - 1) ≠ 0) "Nonzero padding"
  return r.1.map UInt8.ofNat

/-! ## ADNL addresses -/

/-- `adnl_id_encode`, of an id of 32 bytes. -/
def adnlIdEncode (id : Bits256) : List Char :=
  let buf := 0x2d :: Vm.CellInfo.hashToBytes id
  let hash := crc16 buf
  (base32Encode (buf ++ [UInt8.ofNat (hash >>> 8 &&& 255), UInt8.ofNat (hash &&& 255)]) false).drop 1

/-- `adnl_id_decode`. -/
def adnlIdDecode (id : List Char) : Result Bits256 := do
  failIf (id.length ≠ 55) "Wrong length of adnl id"
  let decoded ← base32Decode ('f' :: id)
  failIf (decoded.getD 0 0 ≠ 0x2d) "Invalid first byte"
  let gotHash := ((decoded.getD 33 0).toNat <<< 8) ||| (decoded.getD 34 0).toNat
  let hash := crc16 (decoded.take 33)
  failIf (hash ≠ gotHash) "Hash mismatch"
  return BitVec.ofNat 256 (bitsToNat (bytesToBits ((decoded.drop 1).take 32)))

/-! ## What is written is read -/

theorem b32CharToValue_symbol {digit : Nat} (h : digit < 32) (upperCase : Bool) :
    b32CharToValue ((if upperCase then symbols32Uc else symbols32Lc).getD digit ' ') = some digit := by
  have hlc : symbols32Lc = ['a', 'b', 'c', 'd', 'e', 'f', 'g', 'h', 'i', 'j', 'k', 'l', 'm', 'n', 'o', 'p', 'q', 'r', 's', 't',
      'u', 'v', 'w', 'x', 'y', 'z', '2', '3', '4', '5', '6', '7'] := by decide +kernel
  have huc : symbols32Uc = ['A', 'B', 'C', 'D', 'E', 'F', 'G', 'H', 'I', 'J', 'K', 'L', 'M', 'N', 'O', 'P', 'Q', 'R', 'S', 'T',
      'U', 'V', 'W', 'X', 'Y', 'Z', '2', '3', '4', '5', '6', '7'] := by decide +kernel
  rw [b32CharToValue, hlc, huc]
  revert digit upperCase
  decide +kernel

theorem base32Values_symbols {digits : List Nat} (h : ∀ d ∈ digits, d < 32) (upperCase : Bool) :
    base32Values (digits.map fun digit => (if upperCase then symbols32Uc else symbols32Lc).getD digit ' ') = .ok digits := by
  have hall : (digits.map fun digit => (if upperCase then symbols32Uc else symbols32Lc).getD digit ' ').mapM b32CharToValue =
      some digits := by
    induction digits with
    | nil => rfl
    | cons d digits ih =>
      rw [List.map_cons, List.mapM_cons, b32CharToValue_symbol (h d List.mem_cons_self),
        ih fun x hx => h x (List.mem_cons_of_mem d hx)]
      rfl
  rw [base32Values, hall]

theorem bitsOf_bytes (bytes : List UInt8) : bitsOf 8 (bytes.map UInt8.toNat) = bytesToBits bytes := by
  rw [bitsOf, List.flatMap_map, bytesToBits]

/-- The digits of a text: those of the bytes and of some zeros behind them. -/
theorem exists_digits (input : List UInt8) (upperCase : Bool) : ∃ digits pad, pad < 5 ∧ (∀ d ∈ digits, d < 32) ∧
    base32Encode input upperCase = digits.map (fun digit => (if upperCase then symbols32Uc else symbols32Lc).getD digit ' ') ∧
      bitsOf 5 digits = bytesToBits input ++ List.replicate pad false := by
  have hbytes : ∀ v ∈ input.map UInt8.toNat, v < 2 ^ 8 := by
    intro v hv
    obtain ⟨b, -, rfl⟩ := List.mem_map.1 hv
    exact b.toNat_lt
  obtain ⟨hlt, hdigits, hbits⟩ := repack_spec (show 0 < 5 by decide) (by decide) hbytes (show 0 < 5 by decide)
    (c := 0)
  rw [show natToBits 0 0 = [] from rfl, List.nil_append, bitsOf_bytes] at hbits
  unfold base32Encode
  generalize repack 8 5 0 0 (input.map UInt8.toNat) = r at hlt hdigits hbits
  obtain ⟨out, c, length⟩ := r
  dsimp only at hlt hdigits hbits ⊢
  by_cases hzero : length = 0
  · subst hzero
    refine ⟨out, 0, by decide, hdigits, rfl, ?_⟩
    rw [hbits, List.replicate_zero, List.append_nil]
    show _ = _ ++ []
    rw [List.append_nil]
  · rw [if_pos hzero]
    refine ⟨_, 5 - length, by omega, ?_, rfl, ?_⟩
    · intro d hd
      rcases List.mem_append.1 hd with hd | hd
      · exact hdigits d hd
      · rw [List.mem_singleton.1 hd]
        exact Nat.and_lt_two_pow _ (show 31 < 2 ^ 5 by decide)
    · have hlast : natToBits 5 ((c <<< (5 - length)) % 2 ^ 32 &&& 31) = natToBits length c ++ natToBits (5 - length) 0 := by
        have hshift := @natToBits_shiftIn (5 - length) c length 0 (Nat.two_pow_pos _) (by omega)
        rw [Nat.or_zero, show length + (5 - length) = 5 by omega] at hshift
        rw [← hshift]
        exact natToBits_and 5 _
      have hpad : natToBits (5 - length) 0 = List.replicate (5 - length) false := by
        have hall : ∀ n : Fin 6, natToBits n.1 0 = List.replicate n.1 false := by decide
        exact hall ⟨5 - length, by omega⟩
      rw [bitsOf_append, bitsOf_cons, bitsOf_nil, List.append_nil, hlast, hbits, hpad, List.append_assoc]

/-- What is encoded is decoded. -/
theorem base32Decode_encode (input : List UInt8) (upperCase : Bool) :
    base32Decode (base32Encode input upperCase) = .ok input := by
  obtain ⟨digits, pad, hpad, hdigits, hencode, hbits⟩ := exists_digits input upperCase
  obtain ⟨hlt, hbytes, hout⟩ := repack_spec (show 0 < 8 by decide) (show 8 + 5 ≤ 33 by decide) hdigits
    (show 0 < 8 by decide) (c := 0)
  rw [show natToBits 0 0 = [] from rfl, List.nil_append, hbits] at hout
  have hvalues := base32Values_symbols hdigits upperCase
  rw [hencode, base32Decode, hvalues]
  show (failIf _ _ >>= fun _ => .ok ((repack 5 8 0 0 digits).1.map UInt8.ofNat)) = _
  generalize repack 5 8 0 0 digits = r at hlt hbytes hout
  obtain ⟨out, c, length⟩ := r
  dsimp only at hlt hbytes hout
  -- as many whole bytes, so the same bytes
  have hlen := congrArg List.length hout
  rw [List.length_append, List.length_append, length_bytesToBits, length_bitsOf, List.length_replicate, length_natToBits] at hlen
  obtain ⟨hsame, hrest⟩ := List.append_inj hout (by rw [length_bytesToBits, length_bitsOf]; omega)
  have hsum : length = pad := by omega
  subst hsum
  rw [← bitsOf_bytes] at hsame
  have hinput : input.map UInt8.toNat = out := by
    refine bitsOf_inj (show 0 < 8 by decide) ?_ hbytes hsame
    intro v hv
    obtain ⟨b, -, rfl⟩ := List.mem_map.1 hv
    exact b.toNat_lt
  have hzero : c &&& ((1 <<< length) - 1) = 0 := by
    have hvalue := congrArg bitsToNat hrest
    have hnone : bitsToNat (List.replicate length false) = 0 := by
      have hall : ∀ n : Fin 8, bitsToNat (List.replicate n.1 false) = 0 := by decide
      exact hall ⟨length, hlt⟩
    rw [bitsToNat_natToBits, hnone] at hvalue
    rw [Nat.one_shiftLeft, Nat.and_two_pow_sub_one_eq_mod]
    exact hvalue.symm
  rw [(failIf_ok_iff (u := ())).2 (not_not.2 hzero), ← hinput, List.map_map]
  show Except.ok _ = _
  rw [show (UInt8.ofNat ∘ UInt8.toNat) = id from funext fun b => UInt8.ofNat_toNat, List.map_id]

/-- What the text of an address is made of. -/
def adnlBytes (id : Bits256) : List UInt8 :=
  0x2d :: Vm.CellInfo.hashToBytes id ++ [UInt8.ofNat (crc16 (0x2d :: Vm.CellInfo.hashToBytes id) >>> 8 &&& 255),
    UInt8.ofNat (crc16 (0x2d :: Vm.CellInfo.hashToBytes id) &&& 255)]

theorem length_hash (id : Bits256) : (Vm.CellInfo.hashToBytes id).length = 32 := by
  rw [Vm.CellInfo.hashToBytes, length_packBits] <;> rw [length_natToBits]

theorem adnlIdEncode_eq (id : Bits256) : adnlIdEncode id = (base32Encode (adnlBytes id) false).drop 1 := rfl

/-- The symbol that is left out. -/
theorem base32Encode_adnlBytes (id : Bits256) :
    base32Encode (adnlBytes id) false = 'f' :: adnlIdEncode id ∧ (adnlIdEncode id).length = 55 := by
  obtain ⟨digits, pad, hpad, hdigits, hencode, hbits⟩ := exists_digits (adnlBytes id) false
  have hlen := congrArg List.length hbits
  have hbytes : (adnlBytes id).length = 35 := by
    rw [adnlBytes, List.length_append, List.length_cons, length_hash]
    rfl
  rw [length_bitsOf, List.length_append, length_bytesToBits, List.length_replicate, hbytes] at hlen
  cases digits with
  | nil =>
    rw [List.length_nil] at hlen
    omega
  | cons d digits =>
    have hfirst : natToBits 5 d = [false, false, true, false, true] := by
      have htake := congrArg (List.take 5) hbits
      rw [bitsOf_cons, List.take_left' (length_natToBits 5 d)] at htake
      rw [htake, adnlBytes, List.cons_append, bytesToBits_cons]
      rfl
    have hd : d = 5 := by
      have hvalue := congrArg bitsToNat hfirst
      rw [bitsToNat_natToBits, Nat.mod_eq_of_lt (show d < 2 ^ 5 from hdigits d List.mem_cons_self)] at hvalue
      exact hvalue
    have hsymbol : base32Encode (adnlBytes id) false =
        'f' :: digits.map fun digit => symbols32Lc.getD digit ' ' := by
      rw [hencode, List.map_cons, hd]
      rfl
    rw [adnlIdEncode_eq, hsymbol]
    refine ⟨rfl, ?_⟩
    rw [List.length_cons] at hlen
    rw [List.drop_one, List.tail_cons, List.length_map]
    omega

/-- The two bytes of a checksum. -/
theorem crc_bytes {crc : Nat} (h : crc < 2 ^ 16) :
    ((UInt8.ofNat (crc >>> 8 &&& 255)).toNat <<< 8) ||| (UInt8.ofNat (crc &&& 255)).toNat = crc := by
  have hhigh : (UInt8.ofNat (crc >>> 8 &&& 255)).toNat = crc / 2 ^ 8 := by
    rw [UInt8.toNat_ofNat', show (255 : Nat) = 2 ^ 8 - 1 from rfl, Nat.and_two_pow_sub_one_eq_mod,
      Nat.shiftRight_eq_div_pow]
    omega
  have hlow : (UInt8.ofNat (crc &&& 255)).toNat = crc % 2 ^ 8 := by
    rw [UInt8.toNat_ofNat', show (255 : Nat) = 2 ^ 8 - 1 from rfl, Nat.and_two_pow_sub_one_eq_mod]
    omega
  rw [hhigh, hlow, ← Nat.shiftLeft_add_eq_or_of_lt (Nat.mod_lt _ (by decide)), Nat.shiftLeft_eq]
  omega

/-- An address is read from its text. -/
theorem adnlIdDecode_encode (id : Bits256) : adnlIdDecode (adnlIdEncode id) = .ok id := by
  obtain ⟨hencode, hlen⟩ := base32Encode_adnlBytes id
  have hdecode := base32Decode_encode (adnlBytes id) false
  rw [hencode] at hdecode
  have hcrc : crc16 (0x2d :: Vm.CellInfo.hashToBytes id) < 2 ^ 16 := Nat.mod_lt _ (by decide)
  have hhead : (0x2d :: Vm.CellInfo.hashToBytes id).length = 33 := by rw [List.length_cons, length_hash]
  have hsum : ((adnlBytes id).getD 33 0).toNat <<< 8 ||| ((adnlBytes id).getD 34 0).toNat =
      crc16 (0x2d :: Vm.CellInfo.hashToBytes id) := by
    rw [← crc_bytes hcrc, adnlBytes, List.getD_append_right _ _ _ _ (by omega), List.getD_append_right _ _ _ _ (by omega),
      hhead]
    rfl
  have htake : (adnlBytes id).take 33 = 0x2d :: Vm.CellInfo.hashToBytes id := List.take_left' hhead
  have hid : ((adnlBytes id).drop 1).take 32 = Vm.CellInfo.hashToBytes id := List.take_left' (length_hash id)
  have hbits : bytesToBits (Vm.CellInfo.hashToBytes id) = natToBits 256 id.toNat :=
    bytesToBits_packBits (by rw [length_natToBits])
  have hlength : failIf ((adnlIdEncode id).length ≠ 55) "Wrong length of adnl id" = .ok () :=
    failIf_ok_iff.2 (not_not.2 hlen)
  have hbyte : failIf ((adnlBytes id).getD 0 0 ≠ 0x2d) "Invalid first byte" = .ok () := failIf_ok_iff.2 (not_not.2 rfl)
  have hhash : failIf (crc16 ((adnlBytes id).take 33) ≠
      ((adnlBytes id).getD 33 0).toNat <<< 8 ||| ((adnlBytes id).getD 34 0).toNat) "Hash mismatch" = .ok () := by
    rw [hsum, htake]
    exact failIf_ok_iff.2 (not_not.2 rfl)
  rw [adnlIdDecode]
  simp only [bind, Except.bind, hlength, hdecode, hbyte, hhash, hid, hbits]
  rw [bitsToNat_natToBits, Nat.mod_eq_of_lt id.isLt]
  show Except.ok (BitVec.ofNat 256 id.toNat) = _
  rw [BitVec.ofNat_toNat, BitVec.setWidth_eq]

end TonWallet.Td
