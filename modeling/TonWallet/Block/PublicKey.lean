/-
Texts that end in a checksum: public keys (`block::PublicKey`) and packed addresses. What a change of two neighbouring
characters does to the bytes of such a text does not go unnoticed by its checksum, unless the text is padded and the
bytes that it lacks are still in the memory that it is read into.
-/
import TonWallet.Block.StdAddress
import TonWallet.Td.Crc16

namespace TonWallet.Block

open Lib Lib.Crc TonWallet.Td TonWallet.Ton

/-! ## Public keys -/

/-- `PublicKey`: the bytes of an Ed25519 key. -/
structure PublicKey where
  key : List UInt8
  deriving DecidableEq

namespace PublicKey

def fromBytes (key : List UInt8) : Result PublicKey := do
  failIf (key.length ≠ 32) "Ed25519 public key must be exactly 32 bytes long"
  return ⟨key⟩

/-- `parse`, with what its buffer holds before. -/
def parse (uninitialized : Fin 36 → UInt8) (key : List Char) : Result PublicKey := do
  failIf (key.length ≠ 48) "Serialized Ed25519 public key must be exactly 48 characters long"
  match buffBase64Decode (List.ofFn uninitialized) key true with
  | none => fail "Public key is not serialized in base64 encoding"
  | some buf =>
    let byte := fun i => (buf.getD i 0).toNat
    let hash := (byte 34 * 256 + byte 35) % 2 ^ 16
    failIf (hash ≠ crc16 (buf.take 34)) "Public key has incorrect crc16 hash"
    failIf (byte 0 ≠ 0x3e) "Not a public key"
    failIf (byte 1 ≠ 0xe6) "Not an ed25519 public key"
    fromBytes ((buf.drop 2).take 32)

def serialize (k : PublicKey) (base64Url : Bool) : Result (List Char) := do
  check (k.key.length = 32) "key.size() == 32"
  let bytes := 0x3e :: 0xe6 :: k.key
  let hash := crc16 bytes
  return buffBase64Encode (bytes ++ [UInt8.ofNat (hash / 256), UInt8.ofNat (hash % 256)]) base64Url

end PublicKey

/-! ## Sealed bytes -/

/-- Bytes with their checksum behind them. -/
def sealBytes (data : List UInt8) : List UInt8 :=
  data ++ [UInt8.ofNat (crc16 data / 256), UInt8.ofNat (crc16 data % 256)]

/-- A buffer of 36 bytes that ends in the checksum of what is before. -/
structure Sealed (buffer : List UInt8) : Prop where
  length : buffer.length = 36
  high : (buffer.getD 34 0).toNat = crc16 (buffer.take 34) / 256
  low : (buffer.getD 35 0).toNat = crc16 (buffer.take 34) % 256

/-- A sealed buffer is what sealing makes of its first part. -/
theorem Sealed.eq_sealBytes {buffer : List UInt8} (h : Sealed buffer) : buffer = sealBytes (buffer.take 34) := by
  have hlen := h.length
  have hdrop : buffer.drop 34 = [buffer.getD 34 0, buffer.getD 35 0] := by
    rw [List.drop_eq_getElem_cons (by omega), List.drop_eq_getElem_cons (by omega), List.drop_of_length_le (by omega),
      List.getD_eq_getElem _ _ (by omega), List.getD_eq_getElem _ _ (by omega)]
  have hbyte {b : UInt8} {n : Nat} (hb : b.toNat = n) : UInt8.ofNat n = b := by
    rw [← hb, UInt8.ofNat_toNat]
  rw [sealBytes, hbyte h.high, hbyte h.low, ← hdrop, List.take_append_drop]

theorem sealed_sealBytes {data : List UInt8} (hlen : data.length = 34) : Sealed (sealBytes data) := by
  have hcrc := crc16_lt data
  have htake : (sealBytes data).take 34 = data := List.take_left' hlen
  constructor
  · rw [sealBytes, List.length_append, hlen]
    rfl
  · rw [htake, sealBytes, List.getD_append_right _ _ _ _ hlen.le, hlen]
    show (UInt8.ofNat (crc16 data / 256)).toNat = _
    rw [UInt8.toNat_ofNat']
    omega
  · rw [htake, sealBytes, List.getD_append_right _ _ _ _ (by omega), hlen]
    show (UInt8.ofNat (crc16 data % 256)).toNat = _
    rw [UInt8.toNat_ofNat']
    omega

/-- The bits of sealed bytes leave nothing in the register. -/
theorem crc16Feed_sealBytes (data : List UInt8) : crc16Feed 0 (bytesToBits (sealBytes data)) = 0 := by
  have hcrc := crc16_lt data
  have hbits : bytesToBits (sealBytes data) = bytesToBits data ++ natToBits 16 (crc16 data) := by
    have happend : bytesToBits (sealBytes data) = bytesToBits data ++
        (natToBits 8 (UInt8.ofNat (crc16 data / 256)).toNat ++ (natToBits 8 (UInt8.ofNat (crc16 data % 256)).toNat ++ [])) :=
      List.flatMap_append
    rw [happend, List.append_nil, UInt8.toNat_ofNat', UInt8.toNat_ofNat', natToBits_mod, natToBits_mod,
      show crc16 data % 256 = crc16 data % 2 ^ 8 from rfl, natToBits_mod, natToBits_add 8 8]
    rfl
  have hself := feedAll_self crc16Poly (BitVec.ofNat 16 (crc16 data))
  rw [BitVec.toNat_ofNat, Nat.mod_eq_of_lt hcrc] at hself
  have hreg : feedAll crc16Poly 0 (bytesToBits data) = BitVec.ofNat 16 (crc16 data) := (ofNat_crc16 data).symm
  rw [hbits, crc16Feed, feedAll_append, hreg]
  exact hself

/-! ## Changed texts -/

/-- A run of at most two neighbouring characters is changed. -/
def ChangesRun (s s' : List Char) : Prop :=
  ∃ pre run run' post, s = pre ++ (run ++ post) ∧ s' = pre ++ (run' ++ post) ∧ run.length ≤ 2 ∧ run'.length = run.length

/-- The bytes that a text denotes, fewer than the buffer has if the text is padded. -/
def decodedBytes (s : List Char) : Option (List UInt8) := base64Groups 0xc0 (base64Padding s) s

/-- A text is padded, and the memory that it is read into has the bytes that it lacks. -/
def MemoryCompletes (uninitialized : Fin 36 → UInt8) (s s' : List Char) : Prop :=
  s'.getLast? = some '=' ∧
    ∃ bytes, decodedBytes s = some bytes ∧ buffBase64Decode (List.ofFn uninitialized) s' true = some bytes

theorem ChangesRun.length_eq {s s' : List Char} (h : ChangesRun s s') : s'.length = s.length := by
  obtain ⟨pre, run, run', post, rfl, rfl, -, hlen⟩ := h
  simp [hlen]

section Changed

variable {uninitialized : Fin 36 → UInt8} {base64Url : Bool} {data bytes buffer : List UInt8} {s s' : List Char}

/-- A text of 36 bytes is decoded, whatever it is read into. -/
theorem decode_encode (uninitialized : Fin 36 → UInt8) (base64Url : Bool) (hlen : bytes.length = 36) :
    (buffBase64Encode bytes base64Url).length = 48 ∧ decodedBytes (buffBase64Encode bytes base64Url) = some bytes ∧
      buffBase64Decode (List.ofFn uninitialized) (buffBase64Encode bytes base64Url) true = some bytes := by
  have hne : bytes ≠ [] := List.ne_nil_of_length_pos (by omega)
  have h3 : bytes.length % 3 = 0 := by omega
  refine ⟨?_, ?_, buffBase64Decode_encode base64Url hne h3 (by rw [List.length_ofFn, hlen])⟩
  · rw [buffBase64Encode_eq base64Url h3, Base64.Alphabet.length_encode, hlen]
  · rw [decodedBytes, buffBase64Encode_eq base64Url h3, base64Padding_encode]
    exact base64Groups_encode base64Url hne h3

/-- A change in a padded text does not reach what is sealed. -/
theorem take_eq_of_padded (hdata : bytes.length = 36) (hs : s = buffBase64Encode bytes base64Url)
    (hchange : ChangesRun s s') (hlast : s'.getLast? = some '=') {read : List UInt8}
    (hread : base64Groups 0xc0 (base64Padding s') s' = some read) (hlen : 34 ≤ read.length) :
    read.take 34 = bytes.take 34 := by
  obtain ⟨hlen48, hdecoded, -⟩ := decode_encode (fun _ => 0) base64Url hdata
  have hnot : '=' ∉ s := by
    rw [hs, buffBase64Encode_eq base64Url (by omega)]
    exact equals_not_mem_encode base64Url bytes
  rw [← hs] at hlen48 hdecoded
  obtain ⟨pre, run, run', post, hs, hs', hrun, -⟩ := hchange
  -- the equals sign is new, so the change is at the end
  have hpost : post = [] := by
    by_contra hne
    have hsame : s'.getLast? = s.getLast? := by
      rw [hs, hs', ← List.append_assoc, ← List.append_assoc, List.getLast?_append_of_ne_nil _ hne,
        List.getLast?_append_of_ne_nil _ hne]
    exact hnot (List.mem_of_mem_getLast? (hsame ▸ hlast))
  subst hpost
  have hpre : 8 * 34 ≤ (base64Bits pre).length := by
    rw [length_base64Bits]
    rw [hs, List.length_append, List.length_append, List.length_nil] at hlen48
    omega
  have hbits {t : List Char} {x : List UInt8} (q : Nat) (hx : base64Groups 0xc0 q (pre ++ t) = some x)
      (hlen : 34 ≤ x.length) : bytesToBits (x.take 34) = (base64Bits pre).take (8 * 34) := by
    rw [bytesToBits_take, bytesToBits_base64Groups hx, List.take_take, Nat.min_eq_left (by omega), base64Bits_append,
      List.take_append_of_le_length hpre]
  apply bytesToBits_inj
  rw [hs'] at hread
  rw [decodedBytes, hs] at hdecoded
  rw [hbits _ hread hlen, hbits _ hdecoded (by omega)]

/-- The whole buffer is filled, or left as it is. -/
theorem length_of_buffBase64Decode (hlen : s.length = 48)
    (hdecode : buffBase64Decode (List.ofFn uninitialized) s true = some buffer) : buffer.length = 36 := by
  unfold buffBase64Decode at hdecode
  split at hdecode
  · cases hdecode
  · split at hdecode
    · cases hdecode
    · obtain ⟨read, hread, hdecode⟩ := Option.bind_eq_some_iff.1 hdecode
      cases hdecode
      have hq := base64Padding_le s
      have hreadlen := length_base64Groups (by omega) hread
      rw [List.length_append, List.length_drop, List.length_ofFn]
      omega

/-- A sealed text that is changed and is still sealed denotes the same bytes. -/
theorem eq_of_sealed (hdata : data.length = 34) (hs : s = buffBase64Encode (sealBytes data) base64Url)
    (hchange : ChangesRun s s') (hdecode : buffBase64Decode (List.ofFn uninitialized) s' true = some buffer)
    (hsealed : Sealed buffer) : buffer = sealBytes data := by
  have hbytes := (sealed_sealBytes hdata).length
  obtain ⟨hlen48, hdecoded, -⟩ := decode_encode uninitialized base64Url hbytes
  rw [← hs] at hlen48 hdecoded
  have hlen48' := hchange.length_eq.trans hlen48
  unfold buffBase64Decode at hdecode
  split at hdecode
  · cases hdecode
  · split at hdecode
    · cases hdecode
    · rw [if_pos rfl] at hdecode
      obtain ⟨read, hread, hdecode⟩ := Option.bind_eq_some_iff.1 hdecode
      cases hdecode
      have hq := base64Padding_le s'
      have hreadlen := length_base64Groups (by omega) hread
      by_cases hlast : s'.getLast? = some '='
      · have htake := take_eq_of_padded hbytes hs hchange hlast hread (by omega)
        rw [hsealed.eq_sealBytes, List.take_append_of_le_length (by omega), htake]
        congr 1
        exact List.take_left' hdata
      · rw [base64Padding_eq_zero hlast] at hread hreadlen
        have hwhole : read ++ (List.ofFn uninitialized).drop read.length = read := by
          rw [List.drop_of_length_le (by rw [List.length_ofFn]; omega), List.append_nil]
        rw [hwhole] at hsealed ⊢
        -- the bits of both texts leave nothing in the register
        have hbits {t : List Char} {x : List UInt8} (q : Nat) (hx : base64Groups 0xc0 q t = some x) (ht : t.length = 48)
            (hlen : x.length = 36) : bytesToBits x = base64Bits t := by
          rw [bytesToBits_base64Groups hx, List.take_of_length_le (by rw [length_base64Bits]; omega)]
        have hfeed := crc16Feed_sealBytes data
        have hfeed' := crc16Feed_sealBytes (read.take 34)
        rw [← hsealed.eq_sealBytes, hbits 0 hread hlen48' hsealed.length] at hfeed'
        rw [hbits _ hdecoded hlen48 hbytes] at hfeed
        apply bytesToBits_inj
        rw [hbits 0 hread hlen48' hsealed.length, hbits _ hdecoded hlen48 hbytes]
        obtain ⟨pre, run, run', post, hs, hs', hrun, hrunlen⟩ := hchange
        rw [hs', base64Bits_append, base64Bits_append] at hfeed' ⊢
        rw [hs, base64Bits_append, base64Bits_append] at hfeed ⊢
        rw [eq_of_burst crc16Poly_odd (by rw [length_base64Bits, length_base64Bits, hrunlen])
          (by rw [length_base64Bits]; omega) hfeed hfeed']

/-! ## Packed addresses and keys -/

/-- A packed address is a sealed text. -/
theorem packStdSmcAddrTo_ok (uninitialized : Fin 36 → UInt8) {wc : Int32} {addr : Bits256} {bounceable testnet : Bool}
    (h : packStdSmcAddrTo base64Url wc addr bounceable testnet = some s) :
    ∃ data, data.length = 34 ∧ s = buffBase64Encode (sealBytes data) base64Url ∧
      ∃ a, unpackStdSmcAddr uninitialized s = some a := by
  have hread : StdAddress.FitsByte wc := by
    by_contra hnot
    rw [packStdSmcAddrTo, if_pos (not_not.1 fun hle => hnot ((fitsByte_iff _).2 hle))] at h
    cases h
  let a : StdAddress := ⟨wc, bounceable, testnet, addr⟩
  have hunpack : StdAddress.rdeserialize uninitialized (a.rserialize base64Url) = some a :=
    StdAddress.rdeserialize_rserialize hread base64Url
  rw [StdAddress.rserialize, h, Option.getD_some, StdAddress.rdeserialize] at hunpack
  rw [packStdSmcAddrTo, if_neg ((fitsByte_iff _).1 hread)] at h
  refine ⟨_, ?_, (Option.some.inj h).symm, ?_⟩
  · rw [List.length_cons, List.length_cons, length_hashToBytes]
  · split at hunpack
    · exact ⟨_, hunpack⟩
    · cases hunpack

theorem sealed_of_unpackStdSmcAddr {a : StdAddress} (h : unpackStdSmcAddr uninitialized s = some a) (hlen : s.length = 48) :
    ∃ buffer, buffBase64Decode (List.ofFn uninitialized) s true = some buffer ∧ Sealed buffer := by
  obtain ⟨buffer, hdecode, h⟩ := Option.bind_eq_some_iff.1 h
  refine ⟨buffer, hdecode, ?_⟩
  dsimp only at h
  split at h
  · cases h
  · next hcrc =>
    rw [not_or, not_not, not_not] at hcrc
    exact ⟨length_of_buffBase64Decode hlen hdecode, hcrc.1, hcrc.2⟩

theorem sealed_of_parse {k : PublicKey} (h : PublicKey.parse uninitialized s = .ok k) :
    ∃ buffer, buffBase64Decode (List.ofFn uninitialized) s true = some buffer ∧ Sealed buffer := by
  obtain ⟨_, hlen, h⟩ := bind_ok h
  have hlen := not_not.1 (failIf_ok_iff.1 hlen)
  split at h
  · exact absurd h fail_ne_ok
  · next buffer hdecode =>
    obtain ⟨_, hcrc, -⟩ := bind_ok h
    have hcrc := not_not.1 (failIf_ok_iff.1 hcrc)
    dsimp only at hcrc
    have hhigh := (buffer.getD 34 0).toNat_lt
    have hlow := (buffer.getD 35 0).toNat_lt
    exact ⟨buffer, hdecode, length_of_buffBase64Decode hlen hdecode, by omega, by omega⟩

/-- A serialized key is a sealed text, and is parsed. -/
theorem serialize_ok (uninitialized : Fin 36 → UInt8) {k : PublicKey} (h : k.serialize base64Url = .ok s) :
    ∃ data, data.length = 34 ∧ s = buffBase64Encode (sealBytes data) base64Url ∧
      PublicKey.parse uninitialized s = .ok k := by
  obtain ⟨_, hlen, h⟩ := bind_ok h
  have hlen : k.key.length = 32 := check_ok_iff.1 hlen
  have hs : s = buffBase64Encode (sealBytes (0x3e :: 0xe6 :: k.key)) base64Url := (Except.ok.inj h).symm
  have hdata : (0x3e :: 0xe6 :: k.key).length = 34 := by rw [List.length_cons, List.length_cons, hlen]
  refine ⟨_, hdata, hs, ?_⟩
  have hsealed := sealed_sealBytes hdata
  obtain ⟨hlen48, -, hdecode⟩ := decode_encode uninitialized base64Url hsealed.length
  have hcrc := crc16_lt ((sealBytes (0x3e :: 0xe6 :: k.key)).take 34)
  have hhash : ((sealBytes (0x3e :: 0xe6 :: k.key)).getD 34 0).toNat * 256 +
      ((sealBytes (0x3e :: 0xe6 :: k.key)).getD 35 0).toNat = crc16 ((sealBytes (0x3e :: 0xe6 :: k.key)).take 34) := by
    rw [hsealed.high, hsealed.low]
    omega
  have hkey : ((sealBytes (0x3e :: 0xe6 :: k.key)).drop 2).take 32 = k.key := List.take_left' hlen
  unfold PublicKey.parse
  rw [hs, hlen48, hdecode]
  have hfirst : ((sealBytes (0x3e :: 0xe6 :: k.key)).getD 0 0).toNat = 0x3e := rfl
  have hsecond : ((sealBytes (0x3e :: 0xe6 :: k.key)).getD 1 0).toNat = 0xe6 := rfl
  simp only [hhash, hkey, hfirst, hsecond, Nat.mod_eq_of_lt hcrc, PublicKey.fromBytes, hlen, failIf, ne_eq,
    not_true_eq_false, if_false]
  rfl

/-- A changed text whose own bytes are others is read only if the memory that it is read into has the bytes that it
lacks. -/
theorem decode_changed_iff (hdata : data.length = 34) (hs : s = buffBase64Encode (sealBytes data) base64Url)
    (hchange : ChangesRun s s') (hdiffers : decodedBytes s' ≠ decodedBytes s) :
    (∃ buffer, buffBase64Decode (List.ofFn uninitialized) s' true = some buffer ∧ Sealed buffer) ↔
      MemoryCompletes uninitialized s s' := by
  have hsealed := sealed_sealBytes hdata
  obtain ⟨hlen48, hdecoded, -⟩ := decode_encode uninitialized base64Url hsealed.length
  rw [← hs] at hlen48 hdecoded
  have hlen48' := hchange.length_eq.trans hlen48
  constructor
  · rintro ⟨buffer, hdecode, hbuffer⟩
    have heq := eq_of_sealed hdata hs hchange hdecode hbuffer
    refine ⟨?_, buffer, heq ▸ hdecoded, hdecode⟩
    by_contra hlast
    apply hdiffers
    have hne : s' ≠ [] := List.ne_nil_of_length_pos (by omega)
    rw [buffBase64Decode_unpadded (by omega) hne (by rw [List.length_ofFn, hlen48']) (base64Padding_eq_zero hlast)] at hdecode
    rw [decodedBytes, base64Padding_eq_zero hlast, hdecode, hdecoded, heq]
  · rintro ⟨-, bytes, hbytes, hdecode⟩
    rw [hdecoded] at hbytes
    cases hbytes
    exact ⟨_, hdecode, hsealed⟩

end Changed

/-- A change of at most two neighbouring characters that changes the bytes of a packed address is refused, unless the
changed text is padded and the memory of the buffer has what it lacks; and so with public keys. -/
theorem changed_refused_iff (uninitialized : Fin 36 → UInt8) (base64Url : Bool) :
    (∀ (wc : Int32) (addr : Bits256) (bounceable testnet : Bool) (s s' : List Char),
      packStdSmcAddrTo base64Url wc addr bounceable testnet = some s → ChangesRun s s' →
        decodedBytes s' ≠ decodedBytes s →
          (unpackStdSmcAddr uninitialized s' = none ↔ ¬ MemoryCompletes uninitialized s s')) ∧
      ∀ (k : PublicKey) (s s' : List Char), k.serialize base64Url = .ok s → ChangesRun s s' →
        decodedBytes s' ≠ decodedBytes s →
          ((∀ k', PublicKey.parse uninitialized s' ≠ .ok k') ↔ ¬ MemoryCompletes uninitialized s s') := by
  constructor
  · intro wc addr bounceable testnet s s' hpack hchange hdiffers
    obtain ⟨data, hdata, hs, a, ha⟩ := packStdSmcAddrTo_ok uninitialized hpack
    obtain ⟨hlen48, hdecoded, hdecode⟩ := decode_encode uninitialized base64Url
      (sealed_sealBytes hdata).length
    rw [← hs] at hlen48 hdecoded hdecode
    rw [← decode_changed_iff hdata hs hchange hdiffers]
    constructor
    · rintro hnone ⟨buffer, hread, hbuffer⟩
      -- the buffer is that of the unchanged text
      rw [eq_of_sealed hdata hs hchange hread hbuffer] at hread
      have hsame : unpackStdSmcAddr uninitialized s' = unpackStdSmcAddr uninitialized s := by
        unfold unpackStdSmcAddr
        rw [hread, hdecode]
      rw [hsame, ha] at hnone
      cases hnone
    · intro hnot
      by_contra hsome
      obtain ⟨a', ha'⟩ := Option.ne_none_iff_exists'.1 hsome
      exact hnot (sealed_of_unpackStdSmcAddr ha' (hchange.length_eq.trans hlen48))
  · intro k s s' hserialize hchange hdiffers
    obtain ⟨data, hdata, hs, hparse⟩ := serialize_ok uninitialized hserialize
    obtain ⟨hlen48, hdecoded, hdecode⟩ := decode_encode uninitialized base64Url
      (sealed_sealBytes hdata).length
    rw [← hs] at hlen48 hdecoded hdecode
    rw [← decode_changed_iff hdata hs hchange hdiffers]
    constructor
    · rintro hnone ⟨buffer, hread, hbuffer⟩
      rw [eq_of_sealed hdata hs hchange hread hbuffer] at hread
      have hsame : PublicKey.parse uninitialized s' = PublicKey.parse uninitialized s := by
        unfold PublicKey.parse
        rw [hread, hdecode, hchange.length_eq]
      exact hnone k (hsame.trans hparse)
    · intro hnot k' hk'
      exact hnot (sealed_of_parse hk')

/-! ## A text that is padded -/

namespace Sample

/-- The address of zeroes, in the basechain. -/
def zeroAddress : List Char := (packStdSmcAddrTo true 0 0 true false).getD []

/-- Its last character replaced by padding. -/
def paddedAddress : List Char := zeroAddress.take 47 ++ ['=']

/-- Memory in which the address was unpacked before. -/
def usedMemory : Fin 36 → UInt8 := fun i => ((decodedBytes zeroAddress).getD []).getD i 0

def freshMemory : Fin 36 → UInt8 := fun _ => 1

/-- The texts, and what they are read as. -/
def zeroText : List Char := 'E' :: 'Q' :: (List.replicate 43 'A' ++ ['M', '9', 'c'])
def paddedText : List Char := 'E' :: 'Q' :: (List.replicate 43 'A' ++ ['M', '9', '='])
def zeroBytes : List UInt8 := 0x11 :: (List.replicate 33 0 ++ [0xcf, 0x5c])

theorem read_texts : decodedBytes zeroText = some zeroBytes ∧ decodedBytes paddedText ≠ some zeroBytes ∧
    buffBase64Decode (List.ofFn freshMemory) paddedText true ≠ some zeroBytes ∧
    unpackStdSmcAddr (fun i => zeroBytes.getD i 0) paddedText ≠ none := by
  decide +kernel

theorem pack_zeroText : packStdSmcAddrTo true 0 0 true false = some zeroText := by decide +kernel

theorem zeroAddress_eq : zeroAddress = zeroText := by rw [zeroAddress, pack_zeroText, Option.getD_some]

theorem paddedAddress_eq : paddedAddress = paddedText := by
  rw [paddedAddress, zeroAddress_eq]
  rfl

theorem pack_zeroAddress : packStdSmcAddrTo true 0 0 true false = some zeroAddress := by rw [pack_zeroText, zeroAddress_eq]

theorem changesRun_padded : ChangesRun zeroAddress paddedAddress := by
  rw [zeroAddress_eq, paddedAddress_eq]
  exact ⟨'E' :: 'Q' :: (List.replicate 43 'A' ++ ['M', '9']), ['c'], ['='], [], rfl, rfl, by decide, rfl⟩

theorem decodedBytes_zeroAddress : decodedBytes zeroAddress = some zeroBytes := by rw [zeroAddress_eq, read_texts.1]

theorem decodedBytes_padded : decodedBytes paddedAddress ≠ decodedBytes zeroAddress := by
  rw [decodedBytes_zeroAddress, paddedAddress_eq]
  exact read_texts.2.1

/-- In fresh memory the padded text is refused. -/
theorem padded_refused : unpackStdSmcAddr freshMemory paddedAddress = none := by
  apply ((changed_refused_iff freshMemory true).1 0 0 true false zeroAddress paddedAddress pack_zeroAddress
    changesRun_padded decodedBytes_padded).2
  rintro ⟨-, bytes, hbytes, hread⟩
  have hnot : buffBase64Decode (List.ofFn freshMemory) paddedAddress true ≠ decodedBytes zeroAddress := by
    rw [decodedBytes_zeroAddress, paddedAddress_eq]
    exact read_texts.2.2.1
  exact hnot (hread.trans hbytes.symm)

/-- Where the address was unpacked before, the padded text is taken for it. -/
theorem not_changed_refused : ¬ ∀ (uninitialized : Fin 36 → UInt8) (base64Url : Bool) (wc : Int32) (addr : Bits256)
    (bounceable testnet : Bool) (s s' : List Char), packStdSmcAddrTo base64Url wc addr bounceable testnet = some s →
      ChangesRun s s' → decodedBytes s' ≠ decodedBytes s → unpackStdSmcAddr uninitialized s' = none := by
  intro h
  have hnone := h usedMemory true 0 0 true false zeroAddress paddedAddress pack_zeroAddress changesRun_padded
    decodedBytes_padded
  have hsome : unpackStdSmcAddr usedMemory paddedAddress ≠ none := by
    unfold usedMemory
    rw [decodedBytes_zeroAddress, paddedAddress_eq, Option.getD_some]
    exact read_texts.2.2.2
  exact hsome hnone

end Sample

end TonWallet.Block
