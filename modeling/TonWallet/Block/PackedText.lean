/-
Which texts are read as packed addresses and as public keys: the packed forms in either spelling of the two special
digits, and, through equals signs, texts that no writer makes.
-/
import TonWallet.Block.PackedAddress
import TonWallet.Block.PublicKey
import TonWallet.Td.Base64Text

namespace TonWallet.Block

open Lib TonWallet.Td TonWallet.Ton

/-! ## Two spellings -/

/-- Plus and slash as hyphen and underscore. -/
def spell (c : Char) : Char := if c = '+' then '-' else if c = '/' then '_' else c

theorem base64Digit_spell (padding : Bool) (c : Char) : base64Digit 0xc0 padding (spell c) = base64Digit 0xc0 padding c := by
  unfold spell
  split_ifs with hplus hslash
  · subst hplus
    cases padding <;> decide
  · subst hslash
    cases padding <;> decide
  · rfl

theorem base64GroupValue_spell (q : Nat) (last : Bool) (s t u v : Char) :
    base64GroupValue 0xc0 q last (spell s) (spell t) (spell u) (spell v) = base64GroupValue 0xc0 q last s t u v := by
  simp only [base64GroupValue, base64Digit_spell]

/-- Both spellings are read alike. -/
theorem base64Groups_spell (q : Nat) (t : List Char) : base64Groups 0xc0 q (t.map spell) = base64Groups 0xc0 q t := by
  induction t using base64Groups.induct with
  | case1 s t u v cs ih =>
    rw [base64Groups_cons, ← ih, List.map_cons, List.map_cons, List.map_cons, List.map_cons, base64Groups_cons,
      base64GroupValue_spell, List.isEmpty_map]
  | case2 t hshort =>
    rcases t with _ | ⟨s, _ | ⟨t, _ | ⟨u, _ | ⟨v, cs⟩⟩⟩⟩
    · rfl
    · rfl
    · rfl
    · rfl
    · exact absurd rfl (hshort s t u v cs)

theorem spell_eq_equals_iff (c : Char) : spell c = '=' ↔ c = '=' := by
  unfold spell
  split_ifs with hplus hslash
  · subst hplus
    decide
  · subst hslash
    decide
  · rfl

/-- What both alphabets have is a symbol of one in its spelling. -/
theorem spell_mem {c : Char} (h : isBase64Symbol 0xc0 c = true) : spell c ∈ Base64.url.symbols := by
  have hall : ∀ n : Fin 128, base64DecTable.getD n.val 0 &&& 0xc0 ≠ 0 →
      (if n.val = 43 then 45 else if n.val = 47 then 95 else n.val) ∈ Base64.letterCodes ++ [45, 95] := by
    decide +kernel
  rw [isBase64Symbol_iff] at h
  have hc : c.toNat < 128 := by
    by_contra hlarge
    rw [List.getD_eq_default _ _ (Nat.le_of_not_lt hlarge)] at h
    exact h (Nat.zero_and 0xc0)
  have hcode := hall ⟨c.toNat, hc⟩ h
  rw [Base64.mem_url_iff]
  unfold spell
  split_ifs with hplus hslash
  · decide
  · decide
  · have hplus' : c.toNat ≠ 43 := fun h => hplus (Char.toNat_inj.1 h)
    have hslash' : c.toNat ≠ 47 := fun h => hslash (Char.toNat_inj.1 h)
    simpa [hplus', hslash'] using hcode

/-- Whole groups without an equals sign are read as the bytes whose text they are. -/
theorem base64Groups_eq_some_iff {t : List Char} (hlength : t.length = 48) (hequals : '=' ∉ t) {bytes : List UInt8}
    (hbytes : bytes.length = 36) : base64Groups 0xc0 0 t = some bytes ↔ t.map spell = Base64.url.encode bytes := by
  have hwritten : base64Groups 0xc0 0 (Base64.url.encode bytes) = some bytes :=
    base64Groups_encode true (List.ne_nil_of_length_pos (by omega)) (by omega)
  constructor
  · intro h
    have hne : t ≠ [] := List.ne_nil_of_length_pos (by omega)
    have hall : ∀ c ∈ t, IsBase64Readable 0xc0 c := by
      have hiff := @base64Written_iff 0xc0 0 (by decide) t hne (by omega)
      rw [Nat.sub_zero, List.take_length] at hiff
      refine hiff.1 ?_
      by_contra hend
      rw [base64Groups_eq, if_neg hend] at h
      cases h
    have hsymbols : ∀ c ∈ t.map spell, c ∈ Base64.url.symbols := by
      rintro c hc
      obtain ⟨d, hd, rfl⟩ := List.mem_map.1 hc
      rcases hall d hd with hd' | rfl
      · exact spell_mem hd'
      · exact absurd hd hequals
    have hbits {s : List Char} (hs : s.length = 48) (hread : base64Groups 0xc0 0 s = some bytes) :
        base64Bits s = bytesToBits bytes := by
      rw [bytesToBits_base64Groups hread, hbytes, List.take_of_length_le]
      rw [length_base64Bits, hs]
    have hencoded : (Base64.url.encode bytes).length = 48 := by rw [Base64.Alphabet.length_encode, hbytes]
    refine base64Bits_inj hsymbols (Base64.Alphabet.encode_mem _) ?_
    rw [hbits (by rw [List.length_map, hlength]) (by rw [base64Groups_spell, h]), hbits hencoded hwritten]
  · intro h
    rw [← base64Groups_spell, h, hwritten]

/-! ## Buffers that are read -/

/-- What is kept in 36 bytes: how they are read, and the bytes of each value. -/
structure Format (α : Type) where
  ofBuffer : List UInt8 → Option α
  bytes : α → List UInt8
  Valid : α → Prop
  length_bytes : ∀ {a}, Valid a → (bytes a).length = 36
  ofBuffer_iff : ∀ {buffer a}, buffer.length = 36 → (ofBuffer buffer = some a ↔ Valid a ∧ buffer = bytes a)

/-- Whatever the memory that a text is read into holds, something is read from the text exactly if it is a packed form,
and it is the same in all memory. -/
def ReadsExactly {α : Type} (read : (Fin 36 → UInt8) → α → Prop) (packed : α → Prop) : Prop :=
  (∀ memory, (∃ a, read memory a) ↔ ∃ a, packed a) ∧ ∀ memory memory' a, read memory a → read memory' a

/-- The characters of a text are digits or equals signs, and the bits that they stand for, without those of the padding,
are those that some bytes begin with. -/
def Imitates (t : List Char) (bytes : List UInt8) : Prop :=
  (∀ c ∈ t, IsBase64Readable 0xc0 c) ∧
    (base64Bits t).take (8 * (36 - base64Padding t)) = (bytesToBits bytes).take (8 * (36 - base64Padding t))

/-- What a text with an equals sign can be read as, with the memory that suits it. -/
theorem exists_decode_iff {t : List Char} (hlength : t.length = 48) {bytes : List UInt8} (hbytes : bytes.length = 36) :
    (∃ memory : Fin 36 → UInt8, buffBase64Decode (List.ofFn memory) t true = some bytes) ↔ Imitates t bytes := by
  have hq := base64Padding_le t
  have hne : t ≠ [] := List.ne_nil_of_length_pos (by omega)
  have hdecode (memory : Fin 36 → UInt8) : buffBase64Decode (List.ofFn memory) t true =
      (base64Groups 0xc0 (base64Padding t) t).map fun read => read ++ (List.ofFn memory).drop read.length := by
    unfold buffBase64Decode
    rw [if_neg (by rintro (h | h); exacts [h (by omega), hne h]), if_neg (by rw [List.length_ofFn]; omega), if_pos rfl]
    cases base64Groups 0xc0 (base64Padding t) t <;> rfl
  have hgroups := base64Groups_eq 0xc0 (base64Padding t) t
  have hreadable : (base64Written 0xc0 (base64Padding t) t).2 = true ↔ ∀ c ∈ t, IsBase64Readable 0xc0 c := by
    rw [base64Written_iff hq hne (by omega)]
    constructor
    · rintro h c hc
      rw [← (base64Body_append t).1] at hc
      rcases List.mem_append.1 hc with hc | hc
      · exact h c hc
      · exact Or.inr (List.eq_of_mem_replicate hc)
    · exact fun h c hc => h c (List.mem_of_mem_take hc)
  constructor
  · rintro ⟨memory, hmemory⟩
    rw [hdecode] at hmemory
    obtain ⟨read, hread, hmemory⟩ := Option.map_eq_some_iff.1 hmemory
    have hlen := length_base64Groups (by omega) hread
    have hcount : read.length = 36 - base64Padding t := by omega
    constructor
    · rw [← hreadable]
      by_contra hend
      rw [hgroups, if_neg hend] at hread
      cases hread
    · rw [← hcount, ← bytesToBits_base64Groups hread, ← hmemory, bytesToBits_append, List.take_left']
      rw [length_bytesToBits]
  · rintro ⟨hall, hbits⟩
    rw [hreadable.2 hall, if_pos rfl] at hgroups
    have hlen := length_base64Groups (by omega) hgroups
    obtain ⟨read, hread⟩ : ∃ read, read = (base64Written 0xc0 (base64Padding t) t).1 := ⟨_, rfl⟩
    rw [← hread] at hgroups hlen
    have hcount : read.length = 36 - base64Padding t := by omega
    refine ⟨fun i => bytes.getD i 0, ?_⟩
    have hmemory : List.ofFn (fun i : Fin 36 => bytes.getD i 0) = bytes := by
      refine List.ext_getElem (by rw [List.length_ofFn, hbytes]) fun i h _ => ?_
      rw [List.getElem_ofFn, List.getD_eq_getElem]
    have htake : read = bytes.take read.length := by
      apply bytesToBits_inj
      rw [bytesToBits_base64Groups hgroups, bytesToBits_take, hcount, hbits]
    rw [hdecode, hgroups, Option.map_some, hmemory]
    conv_lhs => rw [htake]
    rw [List.length_take, Nat.min_eq_left (by omega), List.take_append_drop]

theorem equals_mem_spell_iff (t : List Char) : '=' ∈ t.map spell ↔ '=' ∈ t := by
  rw [List.mem_map]
  constructor
  · rintro ⟨c, hc, h⟩
    rwa [← (spell_eq_equals_iff c).1 h]
  · intro h
    exact ⟨'=', h, rfl⟩

/-- A text is read as it should be exactly if it has no equals sign, or does not look like a packed form through its
equals signs. -/
theorem Format.readsExactly_iff {α : Type} (F : Format α) {t : List Char} (hlength : t.length = 48) :
    ReadsExactly (fun memory a => (buffBase64Decode (List.ofFn memory) t true).bind F.ofBuffer = some a)
        (fun a => F.Valid a ∧ t.map spell = Base64.url.encode (F.bytes a)) ↔
      '=' ∉ t ∨ ¬∃ a, F.Valid a ∧ Imitates t (F.bytes a) := by
  have hread (memory : Fin 36 → UInt8) (a : α) :
      (buffBase64Decode (List.ofFn memory) t true).bind F.ofBuffer = some a ↔
        F.Valid a ∧ buffBase64Decode (List.ofFn memory) t true = some (F.bytes a) := by
    constructor
    · intro h
      obtain ⟨buffer, hbuffer, h⟩ := Option.bind_eq_some_iff.1 h
      obtain ⟨hvalid, rfl⟩ := (F.ofBuffer_iff (length_of_buffBase64Decode hlength hbuffer)).1 h
      exact ⟨hvalid, hbuffer⟩
    · rintro ⟨hvalid, h⟩
      rw [h]
      exact (F.ofBuffer_iff (F.length_bytes hvalid)).2 ⟨hvalid, rfl⟩
  unfold ReadsExactly
  simp only [hread]
  by_cases hequals : '=' ∈ t
  · -- no packed form has an equals sign, so nothing may be read
    have hnone : ¬∃ a, F.Valid a ∧ t.map spell = Base64.url.encode (F.bytes a) := by
      rintro ⟨a, -, h⟩
      have hmem := (equals_mem_spell_iff t).2 hequals
      rw [h] at hmem
      exact equals_not_mem_encode true (F.bytes a) hmem
    constructor
    · rintro ⟨hiff, -⟩
      right
      rintro ⟨a, hvalid, himitates⟩
      obtain ⟨memory, hmemory⟩ := (exists_decode_iff hlength (F.length_bytes hvalid)).2 himitates
      exact hnone ((hiff memory).1 ⟨a, hvalid, hmemory⟩)
    · rintro (h | h)
      · exact absurd hequals h
      · have hrefused : ∀ (memory : Fin 36 → UInt8) a,
            ¬(F.Valid a ∧ buffBase64Decode (List.ofFn memory) t true = some (F.bytes a)) := by
          rintro memory a ⟨hvalid, hmemory⟩
          exact h ⟨a, hvalid, (exists_decode_iff hlength (F.length_bytes hvalid)).1 ⟨memory, hmemory⟩⟩
        refine ⟨fun memory => iff_of_false ?_ hnone, fun memory memory' a ha => absurd ha (hrefused memory a)⟩
        rintro ⟨a, ha⟩
        exact hrefused memory a ha
  · have hpad : t.getLast? ≠ some '=' := fun h => hequals (List.mem_of_mem_getLast? h)
    refine iff_of_true ⟨fun memory => exists_congr fun a => and_congr_right fun hvalid => ?_, ?_⟩ (Or.inl hequals)
    · rw [StdAddress.buffBase64Decode_of_length hlength hpad, base64Groups_eq_some_iff hlength hequals (F.length_bytes hvalid)]
    · rintro memory memory' a ⟨hvalid, h⟩
      rw [StdAddress.buffBase64Decode_of_length hlength hpad] at h ⊢
      exact ⟨hvalid, h⟩

/-! ## Addresses and keys -/

/-- What `unpack_std_smc_addr` makes of its buffer. -/
def addressOfBuffer (buffer : List UInt8) : Option StdAddress :=
  let crc := crc16 (buffer.take 34)
  let byte := fun i => (buffer.getD i 0).toNat
  if byte 34 ≠ crc / 256 ∨ byte 35 ≠ crc % 256 then none
  else if byte 0 &&& 0x3f ≠ 0x11 then none
  else
    some {
      testnet := byte 0 &&& 0x80 ≠ 0
      bounceable := byte 0 &&& 0x40 = 0
      workchain := (buffer.getD 1 0).toInt8.toInt32
      addr := addrOfBytes ((buffer.drop 2).take 32) }

theorem unpackStdSmcAddr_eq (memory : Fin 36 → UInt8) (t : List Char) :
    unpackStdSmcAddr memory t = (buffBase64Decode (List.ofFn memory) t true).bind addressOfBuffer := rfl

theorem addressOfBuffer_iff {buffer : List UInt8} {a : StdAddress} (hlength : buffer.length = 36) :
    addressOfBuffer buffer = some a ↔ StdAddress.FitsByte a.workchain ∧ buffer = packedBytes a := by
  have hdecode (memory : Fin 36 → UInt8) {bytes : List UInt8} (hbytes : bytes.length = 36) :=
    decode_encode memory true hbytes
  constructor
  · intro h
    obtain ⟨hcount, -, hread⟩ := hdecode (fun _ => 0) hlength
    have hunpack : unpackStdSmcAddr (fun _ => 0) (buffBase64Encode buffer true) = some a := by
      rw [unpackStdSmcAddr_eq, hread, Option.bind_some, h]
    have hrdeserialize : StdAddress.rdeserialize (fun _ => 0) (buffBase64Encode buffer true) = some a := by
      rw [StdAddress.rdeserialize, if_pos hcount, hunpack]
    exact ⟨(StdAddress.fitsByte_of_rdeserialize hrdeserialize).2, eq_packedBytes hread hlength hunpack⟩
  · rintro ⟨hfits, rfl⟩
    have hrdeserialize := @StdAddress.rdeserialize_rserialize (fun _ => 0) a hfits true
    rw [rserialize_eq hfits true, ← buffBase64Encode_eq true (by rw [hlength])] at hrdeserialize
    obtain ⟨hcount, -, hread⟩ := hdecode (fun _ => 0) hlength
    rw [StdAddress.rdeserialize, if_pos hcount, unpackStdSmcAddr_eq, hread, Option.bind_some] at hrdeserialize
    exact hrdeserialize

def addressFormat : Format StdAddress where
  ofBuffer := addressOfBuffer
  bytes := packedBytes
  Valid := fun a => StdAddress.FitsByte a.workchain
  length_bytes := fun _ => length_packedBytes _
  ofBuffer_iff := addressOfBuffer_iff

/-- The bytes of a key that are serialized. -/
def keyBytes (k : PublicKey) : List UInt8 := sealBytes (0x3e :: 0xe6 :: k.key)

theorem toOption_eq_some_iff {α : Type} {r : Result α} {a : α} : r.toOption = some a ↔ r = .ok a := by
  cases r with
  | error e => exact iff_of_false (by rintro ⟨⟩) (by rintro ⟨⟩)
  | ok b => exact ⟨fun h => congrArg Except.ok (Option.some.inj h), fun h => congrArg some (Except.ok.inj h)⟩

/-- What `PublicKey::parse` makes of its buffer. -/
def keyOfBuffer (buf : List UInt8) : Result PublicKey := do
  let byte := fun i => (buf.getD i 0).toNat
  let hash := (byte 34 * 256 + byte 35) % 2 ^ 16
  failIf (hash ≠ crc16 (buf.take 34)) "Public key has incorrect crc16 hash"
  failIf (byte 0 ≠ 0x3e) "Not a public key"
  failIf (byte 1 ≠ 0xe6) "Not an ed25519 public key"
  PublicKey.fromBytes ((buf.drop 2).take 32)

theorem parse_ok_iff {memory : Fin 36 → UInt8} {t : List Char} (hlength : t.length = 48) {k : PublicKey} :
    PublicKey.parse memory t = .ok k ↔
      ∃ buffer, buffBase64Decode (List.ofFn memory) t true = some buffer ∧ keyOfBuffer buffer = .ok k := by
  unfold PublicKey.parse
  rw [hlength]
  cases buffBase64Decode (List.ofFn memory) t true with
  | none =>
    refine iff_of_false fail_ne_ok ?_
    rintro ⟨buffer, ⟨⟩, -⟩
  | some buffer =>
    constructor
    · intro h
      exact ⟨buffer, rfl, h⟩
    · rintro ⟨buffer', hbuffer, h⟩
      cases hbuffer
      exact h

theorem length_keyBytes {k : PublicKey} (h : k.key.length = 32) : (keyBytes k).length = 36 :=
  (sealed_sealBytes (by rw [List.length_cons, List.length_cons, h])).length

/-- A key is serialized to the text of its bytes. -/
theorem serialize_ok_iff {k : PublicKey} {t : List Char} :
    k.serialize true = .ok t ↔ k.key.length = 32 ∧ t = Base64.url.encode (keyBytes k) := by
  constructor
  · intro h
    obtain ⟨_, hlength, h⟩ := bind_ok h
    have hlength : k.key.length = 32 := check_ok_iff.1 hlength
    have ht : t = buffBase64Encode (keyBytes k) true := (Except.ok.inj h).symm
    rw [ht, buffBase64Encode_eq true (by rw [length_keyBytes hlength])]
    exact ⟨hlength, rfl⟩
  · rintro ⟨hlength, rfl⟩
    have hencode := (buffBase64Encode_eq true (by rw [length_keyBytes hlength]) : buffBase64Encode (keyBytes k) true = _)
    change _ = Except.ok ((if true then Base64.url else Base64.standard).encode (keyBytes k))
    rw [← hencode]
    unfold PublicKey.serialize
    rw [(@check_ok_iff (k.key.length = 32) _ "key.size() == 32" ()).2 hlength]
    rfl

theorem keyOfBuffer_iff {buffer : List UInt8} {k : PublicKey} (hlength : buffer.length = 36) :
    keyOfBuffer buffer = .ok k ↔ k.key.length = 32 ∧ buffer = keyBytes k := by
  constructor
  · intro h
    obtain ⟨_, hcrc, h⟩ := bind_ok h
    obtain ⟨_, hfirst, h⟩ := bind_ok h
    obtain ⟨_, hsecond, h⟩ := bind_ok h
    obtain ⟨_, hkey, h⟩ := bind_ok h
    have hcrc := not_not.1 (failIf_ok_iff.1 hcrc)
    have hfirst := not_not.1 (failIf_ok_iff.1 hfirst)
    have hsecond := not_not.1 (failIf_ok_iff.1 hsecond)
    have hkey := not_not.1 (failIf_ok_iff.1 hkey)
    cases h
    refine ⟨hkey, ?_⟩
    have hsealed : Sealed buffer := by
      have hhigh := (buffer.getD 34 0).toNat_lt
      have hlow := (buffer.getD 35 0).toNat_lt
      dsimp only at hcrc
      exact ⟨hlength, by omega, by omega⟩
    have htake : buffer.take 34 = 0x3e :: 0xe6 :: (buffer.drop 2).take 32 := by
      rcases buffer with _ | ⟨b, _ | ⟨c, rest⟩⟩
      · cases hlength
      · cases hlength
      · have hb : b = 0x3e := UInt8.toNat_inj.1 hfirst
        have hc : c = 0xe6 := UInt8.toNat_inj.1 hsecond
        rw [hb, hc]
        rfl
    calc buffer = sealBytes (buffer.take 34) := hsealed.eq_sealBytes
      _ = sealBytes (0x3e :: 0xe6 :: (buffer.drop 2).take 32) := congrArg sealBytes htake
  · rintro ⟨hkey, rfl⟩
    obtain ⟨data, -, -, hparse⟩ := serialize_ok (fun _ => 0) (serialize_ok_iff.2 ⟨hkey, rfl⟩)
    obtain ⟨hcount, -, hread⟩ := decode_encode (fun _ => 0) true hlength
    rw [buffBase64Encode_eq true (by rw [hlength])] at hcount hread
    obtain ⟨buffer, hbuffer, hbufferKey⟩ := (parse_ok_iff hcount).1 hparse
    rw [hread, Option.some.injEq] at hbuffer
    rwa [hbuffer]

def keyFormat : Format PublicKey where
  ofBuffer := fun buffer => (keyOfBuffer buffer).toOption
  bytes := keyBytes
  Valid := fun k => k.key.length = 32
  length_bytes := length_keyBytes
  ofBuffer_iff := fun hlength => by
    rw [← keyOfBuffer_iff hlength]
    exact toOption_eq_some_iff

/-- A text of 48 characters is read as an address, or as a key, exactly if it is the packed form of one in either
spelling: this holds of the texts without an equals sign, and of those that no packed form looks like. -/
theorem packed_read_iff {t : List Char} (hlength : t.length = 48) :
    (ReadsExactly (fun memory a => unpackStdSmcAddr memory t = some a)
        (fun a => packStdSmcAddrTo true a.workchain a.addr a.bounceable a.testnet = some (t.map spell)) ↔
      '=' ∉ t ∨ ¬∃ a : StdAddress, StdAddress.FitsByte a.workchain ∧ Imitates t (packedBytes a)) ∧
    (ReadsExactly (fun memory k => PublicKey.parse memory t = .ok k)
        (fun k => PublicKey.serialize k true = .ok (t.map spell)) ↔
      '=' ∉ t ∨ ¬∃ k : PublicKey, k.key.length = 32 ∧ Imitates t (keyBytes k)) := by
  constructor
  · have hpack (a : StdAddress) :
        packStdSmcAddrTo true a.workchain a.addr a.bounceable a.testnet = some (t.map spell) ↔
          StdAddress.FitsByte a.workchain ∧ t.map spell = Base64.url.encode (packedBytes a) := by
      constructor
      · intro h
        have hfits : StdAddress.FitsByte a.workchain := by
          by_contra hnot
          rw [packStdSmcAddrTo, if_pos (not_not.1 fun hle => hnot ((fitsByte_iff _).2 hle))] at h
          cases h
        have hrserialize := rserialize_eq hfits true
        rw [StdAddress.rserialize, h] at hrserialize
        exact ⟨hfits, hrserialize⟩
      · rintro ⟨hfits, h⟩
        have hpacked : packStdSmcAddrTo true a.workchain a.addr a.bounceable a.testnet = some (a.rserialize true) := by
          unfold StdAddress.rserialize packStdSmcAddrTo
          rw [if_neg ((fitsByte_iff _).1 hfits)]
          rfl
        rw [hpacked, rserialize_eq hfits true, h]
        rfl
    simp only [hpack]
    exact addressFormat.readsExactly_iff hlength
  · have hparse (memory : Fin 36 → UInt8) (k : PublicKey) : PublicKey.parse memory t = .ok k ↔
        (buffBase64Decode (List.ofFn memory) t true).bind keyFormat.ofBuffer = some k := by
      rw [parse_ok_iff hlength, Option.bind_eq_some_iff]
      exact exists_congr fun buffer => and_congr_right fun _ => toOption_eq_some_iff.symm
    simp only [hparse, serialize_ok_iff]
    exact keyFormat.readsExactly_iff hlength

/-! ## An equals sign that is read as a digit -/

namespace PackedSample

/-- An address with a digit one before its checksum, in the basechain. -/
def oneAddress : List Char := (packStdSmcAddrTo true 0 4 true false).getD []

/-- The digit replaced by an equals sign. -/
def forgedAddress : List Char := oneAddress.take 44 ++ '=' :: oneAddress.drop 45

theorem oneAddress_eq : oneAddress = 'E' :: 'Q' :: (List.replicate 42 'A' ++ ['B', 'I', '_', 'Y']) := by decide +kernel

theorem forgedAddress_eq : forgedAddress = 'E' :: 'Q' :: (List.replicate 42 'A' ++ ['=', 'I', '_', 'Y']) := by
  rw [forgedAddress, oneAddress_eq]
  rfl

/-- A text without equals signs is read as it should be. -/
theorem packed_read_oneAddress :
    ReadsExactly (fun memory a => unpackStdSmcAddr memory oneAddress = some a)
      (fun a => packStdSmcAddrTo true a.workchain a.addr a.bounceable a.testnet = some (oneAddress.map spell)) :=
  (packed_read_iff (by rw [oneAddress_eq]; rfl)).1.2 (Or.inl (by rw [oneAddress_eq]; decide))

/-- The forged text is no packed form, but it is read as one. -/
theorem forgedAddress_read :
    forgedAddress.length = 48 ∧ ¬ReadsExactly (fun memory a => unpackStdSmcAddr memory forgedAddress = some a)
      (fun a => packStdSmcAddrTo true a.workchain a.addr a.bounceable a.testnet = some (forgedAddress.map spell)) := by
  refine ⟨by rw [forgedAddress_eq]; rfl, ?_⟩
  rintro ⟨haccepts, -⟩
  have hread : unpackStdSmcAddr (fun _ => 0) forgedAddress = some ⟨0, true, false, 4⟩ := by
    rw [forgedAddress_eq]
    decide +kernel
  obtain ⟨a, ha⟩ := (haccepts fun _ => 0).1 ⟨_, hread⟩
  obtain ⟨data, hdata, hs, -⟩ := packStdSmcAddrTo_ok (fun _ => 0) ha
  have hmem : '=' ∈ forgedAddress.map spell := by
    rw [forgedAddress_eq]
    decide
  rw [hs, buffBase64Encode_eq true (by rw [(sealed_sealBytes hdata).length])] at hmem
  exact equals_not_mem_encode true _ hmem

end PackedSample

end TonWallet.Block
