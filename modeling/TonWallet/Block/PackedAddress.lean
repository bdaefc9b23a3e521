/-
The packed form of an address is one text: all of it is given by the address, the flags and the alphabet. Only the
reader takes more than one text, as it takes both alphabets at once.
-/
import TonWallet.Block.StdAddress

namespace TonWallet.Block

open Lib TonWallet.Td TonWallet.Ton

/-! ## Texts of base64 -/

/-- A symbol is that of the digit that it is taken for. -/
theorem symbol_base64Value {c : Char} (h : c ∈ Base64.url.symbols) : Base64.url.symbol (base64Value c) = c := by
  obtain ⟨d, hd, rfl⟩ := Base64.url.exists_symbol h
  have hdigit : base64Digit 0xc0 false (Base64.url.symbol d) = some d := base64Digit_symbol hd true false
  rw [← base64Digit_eq hdigit]

/-- Symbols have different bits. -/
theorem base64Bits_inj {xs ys : List Char} (hx : ∀ c ∈ xs, c ∈ Base64.url.symbols) (hy : ∀ c ∈ ys, c ∈ Base64.url.symbols)
    (h : base64Bits xs = base64Bits ys) : xs = ys := by
  induction xs generalizing ys with
  | nil =>
    have hlength := congrArg List.length h
    rw [length_base64Bits, length_base64Bits, List.length_nil] at hlength
    exact (List.length_eq_zero_iff.1 (by omega)).symm
  | cons x xs ih =>
    cases ys with
    | nil =>
      have hlength := congrArg List.length h
      rw [length_base64Bits, length_base64Bits, List.length_nil, List.length_cons] at hlength
      omega
    | cons y ys =>
      have hcons (c : Char) (cs : List Char) : base64Bits (c :: cs) = natToBits 6 (base64Value c) ++ base64Bits cs := rfl
      rw [hcons, hcons] at h
      obtain ⟨hdigit, hrest⟩ := List.append_inj h (by rw [length_natToBits, length_natToBits])
      have hvalue := congrArg bitsToNat hdigit
      have hmod (c : Char) : base64Value c % 2 ^ 6 = base64Value c := Nat.mod_eq_of_lt (base64Value_lt c)
      rw [bitsToNat_natToBits, bitsToNat_natToBits, hmod, hmod] at hvalue
      have hsymbol : x = y := by
        rw [← symbol_base64Value (hx x List.mem_cons_self), hvalue, symbol_base64Value (hy y List.mem_cons_self)]
      rw [hsymbol, ih (fun c hc => hx c (List.mem_cons_of_mem x hc)) (fun c hc => hy c (List.mem_cons_of_mem y hc)) hrest]

/-- What is read is in the table. -/
theorem toNat_lt_of_base64Digit {mode : Nat} {c : Char} {d : Nat} (h : base64Digit mode false c = some d) :
    c.toNat < 128 := by
  by_contra hlarge
  have hzero : base64DecTable.getD c.toNat 0 = 0 := List.getD_eq_default _ _ (Nat.le_of_not_lt hlarge)
  unfold base64Digit at h
  rw [hzero] at h
  dsimp only at h
  rw [if_pos ⟨Nat.zero_and mode, by decide, Bool.false_ne_true⟩] at h
  cases h

theorem toNat_lt_of_base64Groups {mode : Nat} {t : List Char} {bytes : List UInt8} (h : base64Groups mode 0 t = some bytes) :
    ∀ c ∈ t, c.toNat < 128 := by
  induction t using base64Groups.induct generalizing bytes with
  | case1 s t u v cs ih =>
    unfold base64Groups at h
    obtain ⟨s', hs, h⟩ := Option.bind_eq_some_iff.1 h
    obtain ⟨t', ht, h⟩ := Option.bind_eq_some_iff.1 h
    obtain ⟨u', hu, h⟩ := Option.bind_eq_some_iff.1 h
    obtain ⟨v', hv, h⟩ := Option.bind_eq_some_iff.1 h
    have hunpadded (n : Nat) (hn : n < 4) : (cs.isEmpty && decide (4 ≤ n + 0)) = false := by
      rw [Nat.add_zero, decide_eq_false (Nat.not_le.2 hn), Bool.and_false]
    rw [hunpadded 0 (by decide)] at hs
    rw [hunpadded 1 (by decide)] at ht
    rw [hunpadded 2 (by decide)] at hu
    rw [hunpadded 3 (by decide)] at hv
    have hrest : ∀ c ∈ cs, c.toNat < 128 := by
      dsimp only at h
      split at h
      · next hlast =>
        rw [List.isEmpty_iff] at hlast
        rw [hlast]
        exact List.forall_mem_nil _
      · obtain ⟨rest, hrest, -⟩ := Option.bind_eq_some_iff.1 h
        exact ih hrest
    simp only [List.forall_mem_cons]
    exact ⟨toNat_lt_of_base64Digit hs, toNat_lt_of_base64Digit ht, toNat_lt_of_base64Digit hu, toNat_lt_of_base64Digit hv,
      hrest⟩
  | case2 t hshort =>
    unfold base64Groups at h
    split at h
    · next s t u v cs => exact absurd rfl (hshort s t u v cs)
    · cases h

/-! ## The bytes of an address -/

/-- The bytes that are packed. -/
def packedBytes (a : StdAddress) : List UInt8 :=
  let buffer := UInt8.ofNat (0x51 - a.bounceable.toNat * 0x40 + a.testnet.toNat * 0x80) :: a.workchain.toInt8.toUInt8 ::
    Vm.CellInfo.hashToBytes a.addr
  buffer ++ [UInt8.ofNat (crc16 buffer / 256), UInt8.ofNat (crc16 buffer % 256)]

theorem length_packedBytes (a : StdAddress) : (packedBytes a).length = 36 := by
  unfold packedBytes
  rw [List.length_append, List.length_cons, List.length_cons, length_hashToBytes]
  rfl

theorem rserialize_eq {a : StdAddress} (h : StdAddress.FitsByte a.workchain) (base64Url : Bool) :
    a.rserialize base64Url = (if base64Url then Base64.url else Base64.standard).encode (packedBytes a) := by
  have hbytes : (packedBytes a).length % 3 = 0 := by rw [length_packedBytes]
  rw [← buffBase64Encode_eq base64Url hbytes]
  unfold StdAddress.rserialize packStdSmcAddrTo
  rw [if_neg ((fitsByte_iff _).1 h)]
  rfl

theorem hashToBytes_addrOfBytes {bytes : List UInt8} (h : bytes.length = 32) :
    Vm.CellInfo.hashToBytes (addrOfBytes bytes) = bytes := by
  have hlength : (bytesToBits bytes).length = 256 := by rw [length_bytesToBits, h]
  have hlt : bitsToNat (bytesToBits bytes) < 2 ^ 256 := hlength ▸ bitsToNat_lt (bytesToBits bytes)
  have hbits : natToBits 256 (bitsToNat (bytesToBits bytes)) = bytesToBits bytes := by
    rw [← hlength]
    exact natToBits_bitsToNat _
  unfold Vm.CellInfo.hashToBytes addrOfBytes
  rw [BitVec.toNat_ofNat, Nat.mod_eq_of_lt hlt, hbits]
  exact bytesToBits_inj (bytesToBits_packBits (by rw [hlength]))

/-- The first byte is given by the flags. -/
theorem flags_written {flags : UInt8} (h : flags.toNat &&& 0x3f = 0x11) :
    UInt8.ofNat (0x51 - (decide (flags.toNat &&& 0x40 = 0)).toNat * 0x40 +
      (decide (flags.toNat &&& 0x80 ≠ 0)).toNat * 0x80) = flags := by
  have hall : ∀ n : Fin 256, n.val &&& 0x3f = 0x11 → UInt8.ofNat (0x51 - (decide (n.val &&& 0x40 = 0)).toNat * 0x40 +
      (decide (n.val &&& 0x80 ≠ 0)).toNat * 0x80) = UInt8.ofNat n.val := by
    decide +kernel
  have hflags := hall ⟨flags.toNat, flags.toNat_lt⟩ h
  rwa [UInt8.ofNat_toNat] at hflags

/-- A buffer that is unpacked is the one that is packed. -/
theorem eq_packedBytes {memory : Fin 36 → UInt8} {packed : List Char} {buffer : List UInt8} {a : StdAddress}
    (hbuffer : buffBase64Decode (List.ofFn memory) packed true = some buffer) (hlength : buffer.length = 36)
    (h : unpackStdSmcAddr memory packed = some a) : buffer = packedBytes a := by
  unfold unpackStdSmcAddr at h
  rw [hbuffer] at h
  obtain ⟨flags, wc, addr, hi, lo, haddr, rfl⟩ : ∃ flags wc addr hi lo, addr.length = 32 ∧
      buffer = flags :: wc :: (addr ++ [hi, lo]) := by
    match buffer, hlength with
    | flags :: wc :: rest, hlength =>
      have hrest : rest.length = 34 := by simpa using hlength
      have hlast : (rest.drop 32).length = 2 := by rw [List.length_drop, hrest]
      obtain ⟨hi, lo, htail⟩ := List.length_eq_two.1 hlast
      refine ⟨flags, wc, rest.take 32, hi, lo, ?_, ?_⟩
      · rw [List.length_take, hrest]
        rfl
      · rw [← htail, List.take_append_drop]
  have htake : (flags :: wc :: (addr ++ [hi, lo])).take 34 = flags :: wc :: addr := by
    rw [← List.cons_append, ← List.cons_append]
    exact List.take_left' (by simp [haddr])
  have hdrop : ((flags :: wc :: (addr ++ [hi, lo])).drop 2).take 32 = addr := List.take_left' haddr
  have hhi : (flags :: wc :: (addr ++ [hi, lo])).getD 34 0 = hi := by
    simp [haddr]
  have hlo : (flags :: wc :: (addr ++ [hi, lo])).getD 35 0 = lo := by
    simp [haddr]
  change (if _ then none else if _ then none else some _) = some a at h
  simp only [htake, hdrop, hhi, hlo] at h
  split at h
  · cases h
  · next hsum =>
    split at h
    · cases h
    · next htag =>
      cases h
      rw [not_or, not_not, not_not] at hsum
      have hflags := flags_written (not_not.1 htag)
      unfold packedBytes
      dsimp only
      have hworkchain : wc.toInt8.toInt32.toInt8.toUInt8 = wc := by
        rw [Int8.toInt8_toInt32]
        rfl
      rw [hashToBytes_addrOfBytes haddr, hflags]
      change _ = flags :: wc.toInt8.toInt32.toInt8.toUInt8 :: addr ++
        [UInt8.ofNat (crc16 (flags :: wc.toInt8.toInt32.toInt8.toUInt8 :: addr) / 256),
          UInt8.ofNat (crc16 (flags :: wc.toInt8.toInt32.toInt8.toUInt8 :: addr) % 256)]
      rw [hworkchain, ← hsum.1, ← hsum.2, UInt8.ofNat_toNat, UInt8.ofNat_toNat]
      rfl

namespace StdAddress

variable {memory : Fin 36 → UInt8} {t : List Char} {a : StdAddress}

/-- A text that is not padded fills the buffer. -/
theorem buffBase64Decode_of_length (hlength : t.length = 48) (hpad : t.getLast? ≠ some '=') :
    buffBase64Decode (List.ofFn memory) t true = base64Groups 0xc0 0 t := by
  refine buffBase64Decode_unpadded (by omega) ?_ ?_ (base64Padding_eq_zero hpad)
  · rintro rfl
    cases hlength
  · rw [List.length_ofFn, hlength]

/-- The characters of such a text are in the table. -/
theorem toNat_lt_of_rdeserialize (hpad : t.getLast? ≠ some '=') (h : rdeserialize memory t = some a) :
    ∀ c ∈ t, c.toNat < 128 := by
  have hlength := (fitsByte_of_rdeserialize h).1
  unfold rdeserialize at h
  rw [if_pos hlength] at h
  obtain ⟨buffer, hbuffer, -⟩ := Option.bind_eq_some_iff.1 h
  rw [buffBase64Decode_of_length hlength hpad] at hbuffer
  exact toNat_lt_of_base64Groups hbuffer

/-- A text of symbols that is read is the one that is written. -/
theorem eq_rserialize (hsymbols : ∀ c ∈ t, c ∈ Base64.url.symbols) (h : rdeserialize memory t = some a) :
    t = a.rserialize true := by
  obtain ⟨hlength, hfits⟩ := fitsByte_of_rdeserialize h
  have hpad : t.getLast? ≠ some '=' := by
    intro hlast
    exact absurd (hsymbols '=' (List.mem_of_mem_getLast? hlast)) (by decide)
  have hdecode : buffBase64Decode (List.ofFn memory) t true = base64Groups 0xc0 0 t :=
    buffBase64Decode_of_length hlength hpad
  unfold rdeserialize at h
  rw [if_pos hlength] at h
  obtain ⟨buffer, hbuffer, -⟩ := Option.bind_eq_some_iff.1 h
  rw [hdecode] at hbuffer
  have hbytes : buffer.length = 36 := by
    have hgroups := length_base64Groups (Nat.zero_le 3) hbuffer
    omega
  have hpacked : buffer = packedBytes a := eq_packedBytes (hdecode.trans hbuffer) hbytes h
  have hwritten : base64Groups 0xc0 0 (a.rserialize true) = some (packedBytes a) := by
    rw [rserialize_eq hfits true]
    apply base64Groups_encode true
    · exact List.ne_nil_of_length_pos (by rw [length_packedBytes]; decide)
    · rw [length_packedBytes]
  have hbits (s : List Char) (hs : s.length = 48) (hread : base64Groups 0xc0 0 s = some (packedBytes a)) :
      base64Bits s = bytesToBits (packedBytes a) := by
    rw [bytesToBits_base64Groups hread, length_packedBytes, List.take_of_length_le]
    rw [length_base64Bits, hs]
  apply base64Bits_inj hsymbols
  · intro c hc
    rw [rserialize_eq hfits true] at hc
    exact Base64.Alphabet.encode_mem _ c hc
  · rw [hbits t hlength (hpacked ▸ hbuffer), hbits _ (length_rserialize hfits true) hwritten]

/-- What is written is of symbols. -/
theorem rserialize_mem (h : FitsByte a.workchain) : ∀ c ∈ a.rserialize true, c ∈ Base64.url.symbols := by
  intro c hc
  rw [rserialize_eq h true] at hc
  exact Base64.Alphabet.encode_mem _ c hc

end StdAddress

end TonWallet.Block
