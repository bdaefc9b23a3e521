/-
Addresses of accounts as texts (`block/block.cpp`): packed into 48 characters of base64 with flags and a checksum, or
raw, a workchain and 64 hexadecimal digits. A raw address may name any workchain, or none; a packed one has a byte
for it.
-/
import TonWallet.Td.Base64
import TonWallet.Vm.Cell

namespace TonWallet.Block

open Lib TonWallet.Td TonWallet.Ton

/-- `StdAddress`. -/
structure StdAddress where
  workchain : Int32 := workchainInvalid
  bounceable : Bool := true
  testnet : Bool := false
  addr : Bits256
  deriving DecidableEq

/-! ## Packed addresses -/

/-- The bytes of an address, as a number. -/
def addrOfBytes (bytes : List UInt8) : Bits256 := BitVec.ofNat 256 (bitsToNat (bytesToBits bytes))

/-- `pack_std_smc_addr_to`. -/
def packStdSmcAddrTo (base64Url : Bool) (wc : Int32) (addr : Bits256) (bounceable testnet : Bool) : Option (List Char) :=
  if wc < -128 ∨ wc ≥ 128 then none
  else
    let buffer := UInt8.ofNat (0x51 - bounceable.toNat * 0x40 + testnet.toNat * 0x80) :: wc.toInt8.toUInt8 ::
      Vm.CellInfo.hashToBytes addr
    let crc := crc16 buffer
    some (buffBase64Encode (buffer ++ [UInt8.ofNat (crc / 256), UInt8.ofNat (crc % 256)]) base64Url)

/-- `unpack_std_smc_addr`, with what its buffer holds before. -/
def unpackStdSmcAddr (uninitialized : Fin 36 → UInt8) (packed : List Char) : Option StdAddress := do
  let buffer ← buffBase64Decode (List.ofFn uninitialized) packed true
  let crc := crc16 (buffer.take 34)
  let byte := fun i => (buffer.getD i 0).toNat
  if byte 34 ≠ crc / 256 ∨ byte 35 ≠ crc % 256 then none
  else if byte 0 &&& 0x3f ≠ 0x11 then none
  else
    some {
      testnet := byte 0 &&& 0x80 ≠ 0
      bounceable := byte 0 &&& 0x40 = 0
      workchain := (buffer.getD 1 0).toInt8.toInt32
      addr := addrOfBytes ((buffer.drop 2).take 32) }

namespace StdAddress

/-- `rserialize`. -/
def rserialize (a : StdAddress) (base64Url : Bool) : List Char :=
  (packStdSmcAddrTo base64Url a.workchain a.addr a.bounceable a.testnet).getD []

/-- `rdeserialize`. -/
def rdeserialize (uninitialized : Fin 36 → UInt8) (from_ : List Char) : Option StdAddress :=
  if from_.length = 48 then unpackStdSmcAddr uninitialized from_ else none

/-! ## Raw addresses -/

/-- `to_integer<int32>`. -/
def toInteger (str : List Char) : Int32 :=
  let negative := str.head? = some '-'
  let digits := (if negative then str.tail else str).takeWhile Char.isDigit
  let value : UInt32 := digits.foldl (fun n c => n * 10 + UInt32.ofNat (c.toNat - '0'.toNat)) 0
  let limit : UInt32 := 2147483647
  let (value, negative) := if value > limit then (-value, !negative) else (value, negative)
  if value > limit then Int32.minValue else if negative then -value.toInt32 else value.toInt32

/-- `to_integer_safe<int32>`: the number must be written as it is printed. -/
def toIntegerSafe (str : List Char) : Option Int32 :=
  let res := toInteger str
  if (toString res.toInt).toList ≠ str then none else some res

/-- `parse_hex_digit`, which takes all letters. -/
def parseHexDigit (c : Char) : Option Nat :=
  if '0'.toNat ≤ c.toNat ∧ c.toNat ≤ '9'.toNat then some (c.toNat - '0'.toNat)
  else
    let c := c.toNat ||| 0x20
    if 'a'.toNat ≤ c ∧ c ≤ 'z'.toNat then some (c - 'a'.toNat + 10) else none

/-- The loop over the digits; what is more than a nibble of the second digit gets into the first one. -/
def parseHexBytes : List Char → Option (List UInt8)
  | c :: d :: cs => do
    let x ← parseHexDigit c
    let y ← parseHexDigit d
    return UInt8.ofNat (((x <<< 4) &&& 0xf0) ||| y) :: (← parseHexBytes cs)
  | _ => some []

/-- The digits of a raw address. -/
def parseDigits (workchain : Int32) (digits : List Char) : Option StdAddress :=
  if digits.length ≠ 64 then none else (parseHexBytes digits).map fun bytes => { workchain, addr := addrOfBytes bytes }

/-- `parse_addr` of a new `StdAddress`. -/
def parseAddr (uninitialized : Fin 36 → UInt8) (accString : List Char) : Option StdAddress :=
  match rdeserialize uninitialized accString with
  | some a => some a
  | none =>
    let pos := accString.findIdx (· == ':')
    if pos < accString.length then
      if pos > 10 then none
      else match toIntegerSafe (accString.take pos) with
        | none => none
        | some workchain =>
          if workchain = workchainInvalid then none else parseDigits workchain (accString.drop (pos + 1))
    else parseDigits workchainInvalid accString

/-- `StdAddress::parse`. -/
def parse (uninitialized : Fin 36 → UInt8) (accString : List Char) : Result StdAddress :=
  match parseAddr uninitialized accString with
  | some a => .ok a
  | none => fail "Failed to parse account address"

end StdAddress

/-- `get_account_address`. -/
def getAccountAddress (uninitialized : Fin 36 → UInt8) (accountAddress : List Char) : Result StdAddress :=
  tryPrefix TonlibError.invalidAccountAddress (StdAddress.parse uninitialized accountAddress)

/-! ## Reading packed addresses back -/

/-- A workchain that a byte has room for. -/
def StdAddress.FitsByte (wc : Int32) : Prop := -128 ≤ wc.toInt ∧ wc.toInt < 128

theorem fitsByte_iff (wc : Int32) : StdAddress.FitsByte wc ↔ ¬ (wc < -128 ∨ wc ≥ 128) := by
  have hlo : wc < -128 ↔ wc.toInt < -128 := Int32.lt_iff_toInt_lt
  have hhi : 128 ≤ wc ↔ 128 ≤ wc.toInt := Int32.le_iff_toInt_le
  unfold StdAddress.FitsByte
  rw [ge_iff_le, hlo, hhi]
  omega

/-- A byte of a workchain is that workchain. -/
theorem toInt32_toInt8 {wc : Int32} (h : StdAddress.FitsByte wc) : wc.toInt8.toUInt8.toInt8.toInt32 = wc := by
  obtain ⟨hlo, hhi⟩ := h
  apply Int32.toInt_inj.1
  rw [Int8.toInt8_toUInt8, Int8.toInt_toInt32, Int32.toInt_toInt8, Int.bmod_def]
  omega

/-- The workchain of a byte. -/
theorem fitsByte_toInt32 (b : Int8) : StdAddress.FitsByte b.toInt32 := by
  unfold StdAddress.FitsByte
  rw [Int8.toInt_toInt32]
  exact ⟨b.le_toInt, b.toInt_lt⟩

theorem length_hashToBytes (h : Bits256) : (Vm.CellInfo.hashToBytes h).length = 32 := by
  rw [Vm.CellInfo.hashToBytes, length_packBits] <;> rw [length_natToBits]

theorem addrOfBytes_hashToBytes (h : Bits256) : addrOfBytes (Vm.CellInfo.hashToBytes h) = h := by
  unfold addrOfBytes Vm.CellInfo.hashToBytes
  rw [bytesToBits_packBits (by rw [length_natToBits]), bitsToNat_natToBits, Nat.mod_eq_of_lt h.isLt, BitVec.ofNat_toNat,
    BitVec.setWidth_eq]

theorem crc16_lt (data : List UInt8) : crc16 data < 2 ^ 16 := Nat.mod_lt _ (by decide)

/-- The flags are in the first byte. -/
theorem flags_read (bounceable testnet : Bool) :
    let flags := (UInt8.ofNat (0x51 - bounceable.toNat * 0x40 + testnet.toNat * 0x80)).toNat
    flags &&& 0x3f = 0x11 ∧ decide (flags &&& 0x80 ≠ 0) = testnet ∧ decide (flags &&& 0x40 = 0) = bounceable := by
  revert bounceable testnet
  decide

namespace StdAddress

variable {uninitialized : Fin 36 → UInt8} {a : StdAddress} {s : List Char}

/-- A workchain that a byte has room for is packed, and read back whatever the buffer held. -/
theorem rdeserialize_rserialize (h : FitsByte a.workchain) (base64Url : Bool) :
    rdeserialize uninitialized (a.rserialize base64Url) = some a := by
  obtain ⟨flags, hflags⟩ : ∃ flags, UInt8.ofNat (0x51 - a.bounceable.toNat * 0x40 + a.testnet.toNat * 0x80) = flags :=
    ⟨_, rfl⟩
  obtain ⟨htag, htestnet, hbounceable⟩ := flags_read a.bounceable a.testnet
  rw [hflags] at htag htestnet hbounceable
  obtain ⟨addr, haddr⟩ : ∃ addr, Vm.CellInfo.hashToBytes a.addr = addr := ⟨_, rfl⟩
  have hlen : addr.length = 32 := haddr ▸ length_hashToBytes a.addr
  obtain ⟨crc, hcrc⟩ : ∃ crc, crc16 (flags :: a.workchain.toInt8.toUInt8 :: addr) = crc := ⟨_, rfl⟩
  have hcrc_lt : crc < 2 ^ 16 := hcrc ▸ crc16_lt _
  obtain ⟨bytes, hbytes⟩ : ∃ bytes, flags :: a.workchain.toInt8.toUInt8 :: addr ++
    [UInt8.ofNat (crc / 256), UInt8.ofNat (crc % 256)] = bytes := ⟨_, rfl⟩
  have hbytes_len : bytes.length = 36 := by
    rw [← hbytes]
    simp [hlen]
  have hpack : a.rserialize base64Url = buffBase64Encode bytes base64Url := by
    unfold rserialize packStdSmcAddrTo
    rw [if_neg ((fitsByte_iff _).1 h)]
    dsimp only
    rw [hflags, haddr, hcrc, hbytes]
    rfl
  have hdecode : buffBase64Decode (List.ofFn uninitialized) (buffBase64Encode bytes base64Url) true = some bytes :=
    buffBase64Decode_encode base64Url (List.ne_nil_of_length_pos (by omega)) (by omega)
      (by rw [List.length_ofFn, hbytes_len])
  have hencoded : (buffBase64Encode bytes base64Url).length = 48 := by
    unfold buffBase64Encode
    dsimp only
    rw [List.length_append, List.length_replicate, Base64.Alphabet.length_encode, hbytes_len]
  -- what is at each place of the buffer
  have htake : bytes.take 34 = flags :: a.workchain.toInt8.toUInt8 :: addr := by
    rw [← hbytes]
    exact List.take_left' (by simp [hlen])
  have hdrop : (bytes.drop 2).take 32 = addr := by
    rw [← hbytes]
    exact List.take_left' hlen
  have hhigh : bytes.getD 34 0 = UInt8.ofNat (crc / 256) := by
    rw [← hbytes, List.getD_append_right _ _ _ _ (by simp [hlen])]
    simp [hlen]
  have hlow : bytes.getD 35 0 = UInt8.ofNat (crc % 256) := by
    rw [← hbytes, List.getD_append_right _ _ _ _ (by simp [hlen])]
    simp [hlen]
  have hfirst : bytes.getD 0 0 = flags := by rw [← hbytes]; rfl
  have hsecond : bytes.getD 1 0 = a.workchain.toInt8.toUInt8 := by rw [← hbytes]; rfl
  unfold rdeserialize unpackStdSmcAddr
  rw [hpack, if_pos hencoded, hdecode]
  simp only [Option.bind_eq_bind, Option.bind_some]
  simp only [htake, hdrop, hhigh, hlow, hfirst, hsecond, hcrc]
  have hsum : ¬ ((UInt8.ofNat (crc / 256)).toNat ≠ crc / 256 ∨ (UInt8.ofNat (crc % 256)).toNat ≠ crc % 256) := by
    rw [UInt8.toNat_ofNat', UInt8.toNat_ofNat']
    omega
  rw [if_neg hsum, if_neg (not_not.2 htag), htestnet, hbounceable, toInt32_toInt8 h, ← haddr, addrOfBytes_hashToBytes]

theorem length_rserialize (h : FitsByte a.workchain) (base64Url : Bool) : (a.rserialize base64Url).length = 48 := by
  by_contra hlen
  have hread := @rdeserialize_rserialize (fun _ => 0) a h base64Url
  rw [rdeserialize, if_neg hlen] at hread
  cases hread

/-- Other workchains are not packed. -/
theorem rserialize_eq_nil (h : ¬ FitsByte a.workchain) (base64Url : Bool) : a.rserialize base64Url = [] := by
  unfold rserialize packStdSmcAddrTo
  rw [if_pos (not_not.1 fun hnot => h ((fitsByte_iff _).2 hnot))]
  rfl

theorem fitsByte_of_rdeserialize (h : rdeserialize uninitialized s = some a) : s.length = 48 ∧ FitsByte a.workchain := by
  unfold rdeserialize at h
  split at h
  · next hlen =>
    refine ⟨hlen, ?_⟩
    obtain ⟨buffer, -, h⟩ := Option.bind_eq_some_iff.1 h
    dsimp only at h
    split at h
    · cases h
    · split at h
      · cases h
      · cases h
        exact fitsByte_toInt32 _
  · cases h

theorem workchain_of_parseDigits {workchain : Int32} (h : parseDigits workchain s = some a) :
    s.length = 64 ∧ a.workchain = workchain := by
  unfold parseDigits at h
  split at h
  · cases h
  · next hlen =>
    obtain ⟨bytes, -, rfl⟩ := Option.map_eq_some_iff.1 h
    exact ⟨not_not.1 hlen, rfl⟩

theorem eq_of_toIntegerSafe {wc : Int32} (h : toIntegerSafe s = some wc) :
    s = (toString wc.toInt).toList ∧ toInteger s = wc := by
  unfold toIntegerSafe at h
  dsimp only at h
  split at h
  · cases h
  · next heq =>
    cases h
    exact ⟨(not_not.1 heq).symm, rfl⟩

/-- A text has one beginning before its first colon. -/
theorem eq_of_append_cons {c : Char} {l l' r r' : List Char} (h : l ++ c :: r = l' ++ c :: r') (hl : c ∉ l)
    (hl' : c ∉ l') : l = l' := by
  induction l generalizing l' with
  | nil =>
    cases l' with
    | nil => rfl
    | cons d l' =>
      obtain ⟨rfl, -⟩ := List.cons.inj h
      exact absurd List.mem_cons_self hl'
  | cons d l ih =>
    cases l' with
    | nil =>
      obtain ⟨rfl, -⟩ := List.cons.inj h
      exact absurd List.mem_cons_self hl
    | cons d' l' =>
      obtain ⟨rfl, htail⟩ := List.cons.inj h
      rw [ih htail (fun hmem => hl (List.mem_cons_of_mem d hmem)) fun hmem => hl' (List.mem_cons_of_mem d hmem)]

/-- A text taken apart at its first colon. -/
theorem split_of_findIdx (h : s.findIdx (· == ':') < s.length) :
    s = s.take (s.findIdx (· == ':')) ++ ':' :: s.drop (s.findIdx (· == ':') + 1) ∧
      ':' ∉ s.take (s.findIdx (· == ':')) := by
  generalize hpos : s.findIdx (· == ':') = pos at h
  have hcolon : s[pos] = ':' := by
    subst hpos
    exact eq_of_beq (List.findIdx_getElem (w := h))
  constructor
  · rw [← hcolon, ← List.drop_eq_getElem_cons h, List.take_append_drop]
  · intro hmem
    obtain ⟨i, hi, heq⟩ := List.mem_take_iff_getElem.1 hmem
    have hbefore : i < s.findIdx (· == ':') := by omega
    exact absurd (beq_iff_eq.2 heq) (by simpa using List.not_of_lt_findIdx hbefore)

/-- What is accepted: a packed address, a raw one with its workchain, or a raw one without. -/
theorem parseAddr_cases (h : parseAddr uninitialized s = some a) :
    s.length = 48 ∧ FitsByte a.workchain ∨
      (∃ text digits, s = text ++ ':' :: digits ∧ ':' ∉ text ∧ digits.length = 64 ∧ toIntegerSafe text = some a.workchain) ∨
        ':' ∉ s ∧ s.length = 64 ∧ a.workchain = workchainInvalid := by
  unfold parseAddr at h
  split at h
  · next hpacked =>
    cases h
    exact .inl (fitsByte_of_rdeserialize hpacked)
  · dsimp only at h
    split at h
    · next hpos =>
      refine .inr (.inl ?_)
      split at h
      · cases h
      · split at h
        · cases h
        · next workchain hworkchain =>
          split at h
          · cases h
          · obtain ⟨hlen, heq⟩ := workchain_of_parseDigits h
            obtain ⟨hsplit, hnot⟩ := split_of_findIdx hpos
            exact ⟨s.take (s.findIdx (· == ':')), s.drop (s.findIdx (· == ':') + 1), hsplit, hnot, hlen,
              heq ▸ hworkchain⟩
    · next hpos =>
      refine .inr (.inr ?_)
      obtain ⟨hlen, heq⟩ := workchain_of_parseDigits h
      refine ⟨?_, hlen, heq⟩
      intro hmem
      exact hpos (List.findIdx_lt_length_of_exists ⟨':', hmem, beq_self_eq_true ':'⟩)

/-- The texts that name a workchain that a byte has room for. -/
def NamesByteWorkchain (s : List Char) : Prop :=
  s.length = 48 ∨ ∃ (wc : Int) (digits : List Char), -128 ≤ wc ∧ wc < 128 ∧ s = (toString wc).toList ++ ':' :: digits

/-- The decimals of a byte. -/
theorem toInteger_toString {wc : Int} (hlo : -128 ≤ wc) (hhi : wc < 128) :
    (toInteger (toString wc).toList).toInt = wc ∧ ':' ∉ (toString wc).toList := by
  have hall : ∀ n : Fin 256, (toInteger (toString ((n : Int) - 128)).toList).toInt = (n : Int) - 128 ∧
      ':' ∉ (toString ((n : Int) - 128)).toList := by
    decide +kernel
  have hn := hall ⟨(wc + 128).toNat, by omega⟩
  have hwc : (((wc + 128).toNat : Nat) : Int) - 128 = wc := by omega
  rw [← hwc]
  exact hn

/-- An accepted text names such a workchain exactly if the address has one. -/
theorem fitsByte_iff_names (h : parseAddr uninitialized s = some a) : FitsByte a.workchain ↔ NamesByteWorkchain s := by
  constructor
  · intro hfits
    rcases parseAddr_cases h with ⟨hlen, -⟩ | ⟨text, digits, hs, -, -, hread⟩ | ⟨-, -, hwc⟩
    · exact .inl hlen
    · obtain ⟨htext, -⟩ := eq_of_toIntegerSafe hread
      exact .inr ⟨a.workchain.toInt, digits, hfits.1, hfits.2, htext ▸ hs⟩
    · rw [hwc] at hfits
      exact absurd hfits.1 (by decide)
  · intro hnames
    rcases parseAddr_cases h with ⟨-, hfits⟩ | ⟨text, digits, hs, hnot, hlen, hread⟩ | ⟨hcolon, hlen, -⟩
    · exact hfits
    · rcases hnames with hshort | ⟨wc, digits', hlo, hhi, hs'⟩
      · rw [hs, List.length_append, List.length_cons] at hshort
        omega
      · -- both texts end at the first colon
        obtain ⟨hvalue, hnot'⟩ := toInteger_toString hlo hhi
        have htext := eq_of_append_cons (hs.symm.trans hs') hnot hnot'
        obtain ⟨-, hwc⟩ := eq_of_toIntegerSafe hread
        rw [htext] at hwc
        rw [← hwc]
        unfold FitsByte
        rw [hvalue]
        exact ⟨hlo, hhi⟩
    · rcases hnames with hshort | ⟨wc, digits', -, -, hs'⟩
      · omega
      · rw [hs'] at hcolon
        exact absurd (by simp) hcolon

end StdAddress

end TonWallet.Block
