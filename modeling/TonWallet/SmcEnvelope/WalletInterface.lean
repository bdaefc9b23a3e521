/-
The messages a wallet sends (`GenericAccount::store_int_message`, `WalletInterface::create_int_message`). The
destination's workchain is stored in eight bits whatever it is, where the packed form of an address refuses what does
not fit.
-/
import TonWallet.Block.ExtraCurrency
import TonWallet.Block.Message
import TonWallet.Block.StdAddress
import TonWallet.Vm.CellString

namespace TonWallet.Vm.CellBuilder

open Lib TonWallet.Td

/-! ## More stores -/

def storeZeroes (bits : Nat) : CellBuilder → Result CellBuilder := storeBits (List.replicate bits false)
def storeOnes (bits : Nat) : CellBuilder → Result CellBuilder := storeBits (List.replicate bits true)

/-- `store_long`: the low bits of a number. -/
def storeLong (value : Int64) (bits : Nat) : CellBuilder → Result CellBuilder :=
  storeBits (natToBits bits value.toBitVec.toNat)

/-- `store_int256` of a number with a sign. -/
def storeInt256 (value : Int) (bits : Nat) (cb : CellBuilder) : Result CellBuilder :=
  if -2 ^ (bits - 1) ≤ value ∧ value < 2 ^ (bits - 1) then cb.storeBits (natToBits bits (value % 2 ^ bits).toNat)
  else .error .cellWriteError

end TonWallet.Vm.CellBuilder

namespace TonWallet.SmcEnvelope

open Lib TonWallet.Td TonWallet.Ton TonWallet.Vm TonWallet.Vm.CellBuilder TonWallet.Block

/-- `VarUInteger::store_integer_value`, with what the builder holds afterwards in any case. -/
def storeVarUInteger (n : Nat) (value : BigInt256) (cb : CellBuilder) : Bool × CellBuilder :=
  let k := value.bitSize
  if k ≤ (n - 1) * 8 then
    match cb.storeLongBool ((k + 7) / 8) (bitLength (n - 1)) with
    | none => (false, cb)
    | some cb => match cb.storeInt256Bool value ((k + 7) / 8 * 8) with
      | none => (false, cb)
      | some cb => (true, cb)
  else (false, cb)

/-- `t_Grams.store_integer_value`. -/
def storeGrams (value : BigInt256) (cb : CellBuilder) : Bool × CellBuilder := storeVarUInteger 16 value cb

namespace GenericAccount

/-- `store_int_message`; whether the grams are stored is not looked at. -/
def storeIntMessage (destAddress : StdAddress) (gramms : Int64) (cb : CellBuilder) : Result CellBuilder := do
  let destAddr := destAddress.addr.toInt
  let cb ← cb.storeZeroes 1
  let cb ← cb.storeOnes 1
  let cb ← cb.storeLong destAddress.bounceable.toInt64 1
  let cb ← cb.storeZeroes 3
  let cb ← cb.storeOnes 1
  let cb ← cb.storeZeroes 2
  let cb ← cb.storeLong destAddress.workchain.toInt64 8
  let cb ← cb.storeInt256 destAddr 256
  let cb := (storeGrams (some gramms.toInt) cb).2
  cb.storeZeroes (9 + 64 + 32)

end GenericAccount

/-- `WalletInterface::Gift`. -/
structure Gift where
  destination : StdAddress
  gramms : Int64
  isEncrypted : Bool := false
  message : List UInt8 := []
  body : Option Cell := none
  initState : Option Cell := none

namespace WalletInterface

variable [Digest]

/-- `store_gift_message`. -/
def storeGiftMessage (gift : Gift) (cb : CellBuilder) : Result CellBuilder := match gift.body with
  | some body => do
    let body ← loadCellSlice ⟨body, .none⟩
    match cb.appendSliceBool ⟨body.bits, body.refs⟩ with
    | some cb => .ok cb
    | none => .error (.check "cb.append_cellslice_bool(body)")
  | none => do
    let cb ← cb.storeLong (if gift.isEncrypted then 1 else 0) 32
    match CellString.store gift.message (35 * 8) cb with
    | .error (.status s) => .error (.check s.toStr)
    | r => r

/-- The initial state in `create_int_message`. -/
def storeInitState (gift : Gift) (cb : CellBuilder) : Result CellBuilder := match gift.initState with
  | some initState => do (← cb.storeOnes 2).storeRef initState
  | none => cb.storeZeroes 1

/-- `create_int_message`. -/
def createIntMessage (gift : Gift) : Result Cell := do
  let cb ← GenericAccount.storeIntMessage gift.destination (if gift.gramms < 0 then 0 else gift.gramms) {}
  let cb ← storeInitState gift cb
  let cb ← cb.storeZeroes 1
  let cb ← storeGiftMessage gift cb
  cb.finalize

end WalletInterface

/-! ## What is stored -/

/-- The workchain that the message has room for: its low eight bits. -/
def storedWorkchain (wc : Int32) : BitVec 8 := BitVec.ofInt 8 wc.toInt

/-- What `store_int_message` stores. -/
def intMessageSlice (a : StdAddress) (grams : Nat) : Slice :=
  intMsgInfoSlice a.bounceable (storedWorkchain a.workchain) a.addr grams

/-- A signed number modulo the powers of two. -/
theorem toInt_emod {n : Nat} (x : BitVec n) : x.toInt % 2 ^ n = x.toNat := by
  have hpow : ((2 ^ n : Nat) : Int) = 2 ^ n := by push_cast; rfl
  rw [BitVec.toInt_eq_toNat_bmod, ← hpow, Int.bmod_emod]
  exact_mod_cast Nat.mod_eq_of_lt x.isLt

theorem natToBits_toInt64 (wc : Int32) : natToBits 8 wc.toInt64.toBitVec.toNat = natToBits 8 (storedWorkchain wc).toNat := by
  have hlow : wc.toInt64.toBitVec.toNat % 2 ^ 8 = (storedWorkchain wc).toNat := by
    have hwide : (wc.toInt64.toBitVec.toNat : Int) = wc.toInt % 2 ^ 64 := by
      rw [← Int32.toInt_toInt64 wc]
      exact (toInt_emod wc.toInt64.toBitVec).symm
    rw [storedWorkchain, BitVec.toNat_ofInt]
    push_cast
    omega
  rw [← hlow, natToBits_mod]

theorem stores_address (addr : Bits256) : Stores (storeInt256 addr.toInt 256) (bitsSlice (natToBits 256 addr.toNat)) := by
  intro cb hbits hrefs
  have hlow : (addr.toInt % 2 ^ 256).toNat = addr.toNat := by
    rw [toInt_emod, Int.toNat_natCast]
  unfold storeInt256
  rw [if_pos ⟨BitVec.le_toInt addr, BitVec.toInt_lt⟩, hlow]
  exact Stores.storeBits _ cb hbits hrefs

theorem length_gramsSlice (grams : Nat) : (gramsSlice grams).bits.length = 4 + (bitLength grams + 7) / 8 * 8 := by
  show (natToBits 4 _ ++ natToBits _ grams).length = _
  rw [List.length_append, length_natToBits, length_natToBits]

theorem storeGrams_eq {grams : Nat} (hgrams : grams < 2 ^ 120) {cb : CellBuilder}
    (hroom : cb.bits.length + (gramsSlice grams).bits.length ≤ maxBits) :
    storeGrams (some (grams : Int)) cb = (true, ⟨cb.bits ++ (gramsSlice grams).bits, cb.refs⟩) := by
  have hsize : bitLength grams ≤ 120 := bitLength_le_iff.2 hgrams
  have hlen := length_gramsSlice grams
  have hk : BigInt256.bitSize (some (grams : Int)) = bitLength grams := by
    rw [BigInt256.bitSize, if_neg (by omega), Int.toNat_natCast]
  have hln : bitLength 15 = 4 := by decide
  have hfirst : cb.storeLongBool ((bitLength grams + 7) / 8) 4 =
      some ⟨cb.bits ++ natToBits 4 ((bitLength grams + 7) / 8), cb.refs⟩ := by
    have hfit : cb.canExtendBy 4 0 = true := by
      simp only [canExtendBy, Bool.and_eq_true, decide_eq_true_eq, Nat.zero_le, and_true]
      omega
    unfold storeLongBool appendSliceBool
    rw [length_natToBits, List.length_nil, if_pos hfit, List.append_nil]
  have hsecond : storeInt256Bool (some (grams : Int)) ((bitLength grams + 7) / 8 * 8)
      ⟨cb.bits ++ natToBits 4 ((bitLength grams + 7) / 8), cb.refs⟩ =
      some ⟨cb.bits ++ (gramsSlice grams).bits, cb.refs⟩ := by
    have hlt : grams < 2 ^ ((bitLength grams + 7) / 8 * 8) := bitLength_le_iff.1 (by omega)
    have hlt' : (grams : Int) < 2 ^ ((bitLength grams + 7) / 8 * 8) := by exact_mod_cast hlt
    have hfit : (CellBuilder.mk (cb.bits ++ natToBits 4 ((bitLength grams + 7) / 8)) cb.refs).canExtendBy
        ((bitLength grams + 7) / 8 * 8) 0 = true := by
      simp only [canExtendBy, Bool.and_eq_true, decide_eq_true_eq, Nat.zero_le, and_true, List.length_append,
        length_natToBits]
      omega
    show (if (grams : Int) < 0 ∨ _ then none else _) = _
    rw [if_neg (by omega), Int.toNat_natCast]
    unfold appendSliceBool
    rw [length_natToBits, List.length_nil, if_pos hfit, List.append_nil, List.append_assoc]
    rfl
  unfold storeGrams storeVarUInteger
  dsimp only
  rw [hk, if_pos hsize, hln, hfirst]
  dsimp only
  rw [hsecond]

theorem stores_grams {grams : Nat} (hgrams : grams < 2 ^ 120) :
    Stores (fun cb => .ok (storeGrams (some (grams : Int)) cb).2) (gramsSlice grams) := by
  intro cb hbits _
  have hrefs : (gramsSlice grams).refs = [] := rfl
  dsimp only
  rw [storeGrams_eq hgrams hbits, hrefs, List.append_nil]

theorem length_intMessageSlice (a : StdAddress) (grams : Nat) :
    (intMessageSlice a grams).bits.length = 378 + (gramsSlice grams).bits.length := by
  simp only [intMessageSlice, intMsgInfoSlice, addrNoneSlice, addrStdSlice, nothingSlice, currencySlice, bitsSlice,
    Slice.append_bits, List.length_append, List.length_cons, List.length_nil, length_natToBits, length_gramsSlice]
  have hbit : bitLength 0 = 0 := rfl
  rw [hbit]
  omega

/-- The stores one after the other. -/
theorem intMessageSlice_eq (a : StdAddress) (grams : Nat) :
    ((bitsSlice [false]).append <| (bitsSlice [true]).append <|
      (bitsSlice (natToBits 1 a.bounceable.toInt64.toBitVec.toNat)).append <| (bitsSlice [false, false, false]).append <|
      (bitsSlice [true]).append <| (bitsSlice [false, false]).append <|
      (bitsSlice (natToBits 8 a.workchain.toInt64.toBitVec.toNat)).append <|
      (bitsSlice (natToBits 256 a.addr.toNat)).append <|
      (gramsSlice grams).append (bitsSlice (List.replicate (9 + 64 + 32) false))) = intMessageSlice a grams := by
  have hflag : natToBits 1 a.bounceable.toInt64.toBitVec.toNat = [a.bounceable] := by
    cases a.bounceable <;> rfl
  have hzeroes : List.replicate (9 + 64 + 32) false =
      [false] ++ ((gramsSlice 0).bits ++ ((gramsSlice 0).bits ++ (natToBits 64 0 ++ natToBits 32 0))) := by decide
  rw [hflag, natToBits_toInt64, hzeroes]
  simp only [intMessageSlice, intMsgInfoSlice, addrNoneSlice, addrStdSlice, nothingSlice, currencySlice, bitsSlice,
    gramsSlice, Slice.append, List.append_assoc, List.append_nil, List.cons_append, List.nil_append]

theorem storeIntMessage_ok (a : StdAddress) {gramms : Int64} {grams : Nat} (h : gramms.toInt = grams) :
    GenericAccount.storeIntMessage a gramms {} = .ok ⟨(intMessageSlice a grams).bits, []⟩ := by
  have hgrams : grams < 2 ^ 120 := by
    have := gramms.toInt_lt
    omega
  have hstores : Stores (GenericAccount.storeIntMessage a gramms) (intMessageSlice a grams) := by
    unfold GenericAccount.storeIntMessage
    rw [h, ← intMessageSlice_eq]
    refine (Stores.storeBits [false]).bind <| (Stores.storeBits [true]).bind <| (Stores.storeBits _).bind <|
      (Stores.storeBits [false, false, false]).bind <| (Stores.storeBits [true]).bind <|
      (Stores.storeBits [false, false]).bind <| (Stores.storeBits _).bind <| (stores_address a.addr).bind ?_
    exact (stores_grams hgrams).bind (g := storeZeroes (9 + 64 + 32)) (Stores.storeBits _)
  have hsize : bitLength grams ≤ 120 := bitLength_le_iff.2 hgrams
  apply hstores {}
  · rw [length_intMessageSlice, length_gramsSlice]
    show 0 + _ ≤ 1023
    omega
  · exact Nat.zero_le _

/-! ## What comes behind it -/

section Stored

variable {cb cb' cb'' : CellBuilder}

theorem adds_storeBits {bits : List Bool} (h : cb.storeBits bits = .ok cb') :
    cb' = ⟨cb.bits ++ bits, cb.refs⟩ := by
  unfold storeBits at h
  split at h
  · cases h
    rfl
  · cases h

theorem adds_storeRef {c : Cell} (h : cb.storeRef (some c) = .ok cb') : cb' = ⟨cb.bits, cb.refs ++ [c]⟩ := by
  unfold storeRef storeRefBool at h
  simp only [Option.bind_eq_bind, Option.bind_some] at h
  split at h
  · next hstored =>
    split at hstored
    · cases hstored
      cases h
      rfl
    · cases hstored
  · cases h

variable [Digest]

/-- The body of a gift's message: the contents of a cell, or an operation and a text behind it. -/
def CarriesBody (gift : Gift) (body : Slice) : Prop := match gift.body with
  | some c => body = ⟨c.data, c.refs⟩
  | none => ∃ text : Slice, body = (bitsSlice (natToBits 32 (if gift.isEncrypted then 1 else 0))).append text ∧
      ∀ cs : CellSlice, cs.Holds text → CellString.load cs maxBits = .ok gift.message

theorem adds_storeGiftMessage {gift : Gift} (h : WalletInterface.storeGiftMessage gift cb = .ok cb') :
    ∃ t : Slice, cb' = ⟨cb.bits ++ t.bits, cb.refs ++ t.refs⟩ ∧ CarriesBody gift t := by
  unfold WalletInterface.storeGiftMessage at h
  unfold CarriesBody
  cases hbody : gift.body with
  | some c =>
    rw [hbody] at h
    obtain ⟨body, hload, h⟩ := bind_ok h
    obtain ⟨-, rfl⟩ := loadCellSlice_ok hload
    rcases appendSliceBool_cases ⟨c.data, c.refs⟩ cb with hadd | ⟨hnone, -⟩
    · rw [show (⟨(CellSlice.ofCell ⟨c, .none⟩).bits, (CellSlice.ofCell ⟨c, .none⟩).refs⟩ : Slice) = ⟨c.data, c.refs⟩ from rfl,
        hadd] at h
      cases h
      exact ⟨⟨c.data, c.refs⟩, rfl, rfl⟩
    · rw [show (⟨(CellSlice.ofCell ⟨c, .none⟩).bits, (CellSlice.ofCell ⟨c, .none⟩).refs⟩ : Slice) = ⟨c.data, c.refs⟩ from rfl,
        hnone] at h
      cases h
  | none =>
    rw [hbody] at h
    obtain ⟨op, hop, h⟩ := bind_ok h
    have hstored : CellString.store gift.message (35 * 8) op = .ok cb' := by
      split at h
      · cases h
      · exact h
    obtain ⟨text, rfl, -, hholds⟩ := CellString.holds_of_store hstored
    have htag : natToBits 32 (if gift.isEncrypted then 1 else 0 : Int64).toBitVec.toNat =
        natToBits 32 (if gift.isEncrypted then 1 else 0) := by
      cases gift.isEncrypted <;> rfl
    rw [adds_storeBits hop, htag]
    refine ⟨(bitsSlice (natToBits 32 (if gift.isEncrypted then 1 else 0))).append text, ?_, text, rfl, ?_⟩
    · rw [Slice.append_bits, Slice.append_refs, bitsSlice, List.nil_append, List.append_assoc]
    · intro cs hcs
      exact CellString.load_of_holds hholds hcs

end Stored

section Message

/-- The amount that is sent: none when it is negative. -/
theorem sent_grams (gramms : Int64) : ∃ grams : Nat, (if gramms < 0 then 0 else gramms).toInt = grams ∧ grams < 2 ^ 120 := by
  have hlt := (if gramms < 0 then 0 else gramms).toInt_lt
  have hnonneg : 0 ≤ (if gramms < 0 then 0 else gramms).toInt := by
    split
    · decide
    · next h =>
      rw [Int64.lt_iff_toInt_lt, not_lt] at h
      exact h
  obtain ⟨grams, hgrams⟩ := Int.eq_ofNat_of_zero_le hnonneg
  exact ⟨grams, hgrams, by omega⟩

theorem toInt_storedWorkchain {wc : Int32} (h : StdAddress.FitsByte wc) : (storedWorkchain wc).toInt = wc.toInt := by
  obtain ⟨hlo, hhi⟩ := h
  rw [storedWorkchain, BitVec.toInt_ofInt, Int.bmod_def]
  omega

variable [Digest]

/-- The cell that is made of a builder. -/
theorem finalize_ok {cb : CellBuilder} {m : Cell} (h : cb.finalize = .ok m) : m = .mk false cb.bits cb.refs := by
  have hcell : cellOf ⟨cb.bits, cb.refs⟩ = some m := by
    rw [← toOption_finalize, h]
    rfl
  exact (cellOf_eq_some hcell).1

/-- What a message is made of. -/
theorem createIntMessage_ok {gift : Gift} {m : Cell} (h : WalletInterface.createIntMessage gift = .ok m) :
    ∃ (grams : Nat) (body : Slice), (if gift.gramms < 0 then 0 else gift.gramms).toInt = grams ∧ grams < 2 ^ 120 ∧
      m.special = false ∧ CarriesBody gift body ∧ (CellSlice.ofCell ⟨m, .none⟩).Holds
        ((intMessageSlice gift.destination grams).append
          ((initSlice gift.initState).append ((bitsSlice [false]).append body))) := by
  obtain ⟨grams, hgrams, hlt⟩ := sent_grams gift.gramms
  unfold WalletInterface.createIntMessage at h
  rw [storeIntMessage_ok gift.destination hgrams] at h
  obtain ⟨cb, hcb, h⟩ := bind_ok h
  cases hcb
  obtain ⟨init, hinit, h⟩ := bind_ok h
  have hinit : init = ⟨(intMessageSlice gift.destination grams).bits ++ (initSlice gift.initState).bits,
      (initSlice gift.initState).refs⟩ := by
    unfold WalletInterface.storeInitState at hinit
    cases hstate : gift.initState with
    | none =>
      rw [hstate] at hinit
      exact adds_storeBits hinit
    | some c =>
      rw [hstate] at hinit
      obtain ⟨flags, hflags, hinit⟩ := bind_ok hinit
      rw [adds_storeRef hinit, adds_storeBits hflags]
      rfl
  subst hinit
  obtain ⟨left, hleft, h⟩ := bind_ok h
  obtain ⟨whole, hwhole, h⟩ := bind_ok h
  obtain ⟨body, rfl, hbody⟩ := adds_storeGiftMessage hwhole
  have hm := finalize_ok h
  rw [adds_storeBits hleft] at hm
  refine ⟨grams, body, hgrams, hlt, ?_, hbody, ?_, ?_⟩
  · rw [hm]
    rfl
  · rw [hm]
    show _ ++ _ ++ _ ++ _ = _ ++ (_ ++ (_ ++ _))
    rw [List.append_assoc, List.append_assoc]
    rfl
  · rw [hm]
    rfl

/-- What a message should be read as. -/
def DecodesTo (m : Cell) (a : StdAddress) : Prop := ∃ (msg : MessageRecord) (info : IntMsgInfo) (dest : MsgAddressInt.AddrStd),
  unpackCell MessageRelaxed.unpack ⟨m, .none⟩ = .ok (some msg) ∧
    unpackExact CommonMsgInfoRelaxed.unpackIntMsgInfo msg.info = some info ∧
    unpackExact MsgAddressInt.unpackAddrStd info.dest = some dest ∧
    dest.workchainId = a.workchain.toInt ∧ dest.address = a.addr ∧ info.bounce = a.bounceable

/-- A message is read as a message to the low eight bits of the workchain. -/
theorem decodes_stored {gift : Gift} {m : Cell} (h : WalletInterface.createIntMessage gift = .ok m) :
    ∃ (msg : MessageRecord) (info : IntMsgInfo) (dest : MsgAddressInt.AddrStd),
      unpackCell MessageRelaxed.unpack ⟨m, .none⟩ = .ok (some msg) ∧
        unpackExact CommonMsgInfoRelaxed.unpackIntMsgInfo msg.info = some info ∧
        unpackExact MsgAddressInt.unpackAddrStd info.dest = some dest ∧
        dest.workchainId = (storedWorkchain gift.destination.workchain).toInt ∧ dest.address = gift.destination.addr ∧
        info.bounce = gift.destination.bounceable ∧
        (∃ grams : Nat, (if gift.gramms < 0 then 0 else gift.gramms).toInt = grams ∧ info.value.Holds (currencySlice grams)) ∧
        msg.init.Holds (initSlice gift.initState) ∧
        ∃ body, CarriesBody gift body ∧ msg.body.Holds ((bitsSlice [false]).append body) := by
  obtain ⟨grams, body, hgrams, hlt, hspecial, hcarries, hholds⟩ := createIntMessage_ok h
  obtain ⟨msg, hmsg, hinfo, hinit, hbody⟩ := unpackExact_message (fetches_intMsgInfo hlt) hholds
  obtain ⟨info, hread, hbounce, hdest, hvalue⟩ := (fetches_unpackIntMsgInfo hlt).unpackExact hinfo
  obtain ⟨dest, hunpack, hwc, haddr⟩ := fetches_unpackAddrStd.unpackExact hdest
  refine ⟨msg, info, dest, ?_, hread, hunpack, hwc, haddr, hbounce, ⟨grams, hgrams, hvalue⟩, hinit, body, hcarries, hbody⟩
  have hload : loadCellSlice ⟨m, .none⟩ = .ok (.ofCell ⟨m, .none⟩) := by
    have hvirt : ¬ (m.specialType = .prunnedBranch ∧ VirtParams.none.virtualization ≠ 0) := fun h => h.2 rfl
    unfold loadCellSlice
    rw [if_neg hvirt, if_neg (by rw [hspecial]; exact Bool.false_ne_true)]
  show loadCellSlice _ >>= _ = _
  rw [hload]
  exact congrArg Except.ok hmsg

/-- The message, the address as a text and the address that was parsed agree. -/
structure Agrees (a : StdAddress) : Prop where
  message : ∀ (gift : Gift) (m : Cell), gift.destination = a → WalletInterface.createIntMessage gift = .ok m → DecodesTo m a
  packed : ∀ (base64Url : Bool) (uninitialized : Fin 36 → UInt8), a.rserialize base64Url ≠ [] ∧
    getAccountAddress uninitialized (a.rserialize base64Url) = .ok a

theorem agrees_of_fitsByte {a : StdAddress} (h : StdAddress.FitsByte a.workchain) : Agrees a := by
  constructor
  · rintro gift m rfl hm
    obtain ⟨msg, info, dest, hmsg, hinfo, hdest, hwc, haddr, hbounce, -⟩ := decodes_stored hm
    exact ⟨msg, info, dest, hmsg, hinfo, hdest, hwc.trans (toInt_storedWorkchain h), haddr, hbounce⟩
  · intro base64Url uninitialized
    constructor
    · apply List.ne_nil_of_length_pos
      rw [StdAddress.length_rserialize h]
      exact Nat.zero_lt_succ 47
    · unfold getAccountAddress StdAddress.parse StdAddress.parseAddr
      rw [StdAddress.rdeserialize_rserialize h]
      rfl

/-- They agree exactly if the text names a workchain that a byte has room for. -/
theorem agrees_iff {uninitialized : Fin 36 → UInt8} {s : List Char} {a : StdAddress}
    (h : getAccountAddress uninitialized s = .ok a) : Agrees a ↔ StdAddress.NamesByteWorkchain s := by
  have hparse : StdAddress.parseAddr uninitialized s = some a := by
    unfold getAccountAddress StdAddress.parse at h
    rw [tryPrefix_ok_iff] at h
    split at h
    · next hparse =>
      cases h
      exact hparse
    · exact absurd h fail_ne_ok
  rw [← StdAddress.fitsByte_iff_names hparse]
  constructor
  · intro hagrees
    by_contra hnot
    exact (hagrees.packed false uninitialized).1 (StdAddress.rserialize_eq_nil hnot false)
  · exact agrees_of_fitsByte

end Message

namespace Sample

abbrev digest : Digest where
  sha256 _ := 0

/-- The address with a three at each of its digits. -/
def threes (workchain : Int32) : StdAddress where
  workchain
  addr := 0x3333333333333333333333333333333333333333333333333333333333333333

/-- An account of the masterchain, packed. -/
def elector : List Char := "Ef8zMzMzMzMzMzMzMzMzMzMzMzMzMzMzMzMzMzMzMzMzM0vF".toList

theorem agrees_elector : @Agrees digest (threes (-1)) := by
  have hparse : getAccountAddress (fun _ => 0) elector = .ok (threes (-1)) := by decide +kernel
  exact (@agrees_iff digest _ _ _ hparse).2 (.inl rfl)

/-- An account of workchain 256. -/
def outside : List Char := "256:".toList ++ List.replicate 64 '3'

/-- The account of workchain 256 has no packed form. -/
theorem not_agrees_outside :
    ¬ ∀ (_ : Digest) (uninitialized : Fin 36 → UInt8) (s : List Char) (a : StdAddress),
      getAccountAddress uninitialized s = .ok a → Agrees a := by
  intro h
  have hparse : getAccountAddress (fun _ => 0) outside = .ok (threes 256) := by decide +kernel
  have hnil : (threes 256).rserialize false = [] := by decide +kernel
  exact (@Agrees.packed digest _ (h digest _ _ _ hparse) false fun _ => 0).1 hnil

/-- A message with a comment can be created, and is the same for workchain 256 and for the basechain. -/
example : (@WalletInterface.createIntMessage digest ⟨threes 256, 5, false, [104, 105], none, none⟩).toOption.isSome ∧
    storedWorkchain 256 = storedWorkchain 0 := by
  decide +kernel

end Sample

end TonWallet.SmcEnvelope
