/-
Messages of transactions as the wallet library reports them (`ToRawTransactions`): the addresses as texts, the amounts,
and what the body says. A comment that is encrypted is opened with the caller's key and with the text of the source, as
it is made from the message, for a salt.
-/
import TonWallet.Tonlib.CreateSendGrams

namespace TonWallet.Tonlib

open Lib TonWallet.Td TonWallet.Ton TonWallet.Vm TonWallet.Vm.Fetch TonWallet.Block TonWallet.SmcEnvelope Crypto
open SendGrams (MsgData)
open SendGrams.GenericCreateSendGrams (attempt textBytes)

/-! ## Amounts and addresses -/

/-- `VarUInteger::as_integer_skip` of grams: the first byte of a number is not zero. -/
def asIntegerSkip : Fetch Nat := do
  let len ← fetchUint 4
  if len ≠ 0 then
    let first ← prefetchUint 8
    guard (first ≠ 0)
  fetchUint (8 * len)

/-- `to_balance`; a number that takes more than 63 bits is converted to the least one. -/
def toBalance (balance : CellSlice) : Result Int64 := match asIntegerSkip balance with
  | none => fail "Failed to unpack balance"
  | some (x, _) => if x < 2 ^ 63 then .ok (Int64.ofNat x) else fail "Failed to unpack balance (2)"

/-- `to_std_address`. -/
def toStdAddress (cs : CellSlice) : Result (List Char) := match MsgAddressInt.getTag cs with
  | none => fail "Failed to read MsgAddressInt tag"
  | some (tag, _) =>
    if tag ≠ 0 then .ok []
    else match unpackExact MsgAddressInt.unpackAddrStd cs with
      | none => fail "Failed to unpack MsgAddressInt"
      | some addr => .ok (StdAddress.rserialize { workchain := Int32.ofInt addr.workchainId, addr := addr.address } true)

/-- `raw_message`. -/
structure RawMessage where
  source : List Char := []
  destination : List Char := []
  value : Int64 := 0
  fwdFee : Int64 := 0
  ihrFee : Int64 := 0
  createdLt : Int64 := 0
  bodyHash : Bits256
  msgData : MsgData

namespace ToRawTransactions

section

variable [Digest]

/-! ## Bodies -/

/-- The body, in the message or in a cell of its own. -/
def messageBody (body : CellSlice) : Result CellSlice :=
  if body.prefetchEq 1 0 then .ok { body with bits := body.bits.tail }
  else match body.prefetchRef 0 with
    | some r => loadCellSlice r
    | none => .error (.check "deferencing null Ref")

/-- The cell of a body. -/
def bodyCell (body : CellSlice) : Result Cell :=
  match CellBuilder.appendSliceBool ⟨body.bits, body.refs⟩ {} with
  | some cb => cb.finalize
  | none => .error .cellWriteError

end

variable [Crypto] [Digest] (toBytes : Cell → Bytes)

/-- The text of an encrypted body in `get_data`. -/
def encryptedData (privateKey : Option PrivateKey) (text salt : Bytes) : Result MsgData := match privateKey with
  | none => .ok (.encryptedText text)
  | some key => do
    match ← attempt (SimpleEncryptionV2.decryptData text key salt) with
    | some decrypted => return .decryptedText decrypted.data
    | none => return .encryptedText text

/-- `get_data`. -/
def getData (privateKey : Option PrivateKey) (body : CellSlice) (bodyCell : Cell) (salt : Bytes) : Result MsgData := do
  if 32 ≤ body.size ∧ bitsToNat (body.bits.take 32) ≤ 1 then
    match ← attempt (CellString.load { body with bits := body.bits.drop 32 } maxBits) with
    | some text =>
      if bitsToNat (body.bits.take 32) = 0 then return .text text else encryptedData privateKey text salt
    | none => return .raw (toBytes bodyCell) []
  else return .raw (toBytes bodyCell) []

/-- `to_raw_message` of an `int_msg_info`. -/
def ofIntMsgInfo (privateKey : Option PrivateKey) (info : IntMsgInfo) (body : CellSlice) (bodyCell : Cell) :
    Result RawMessage := do
  let value ← toBalance info.value
  let source ← toStdAddress info.src
  let destination ← toStdAddress info.dest
  let fwdFee ← toBalance info.fwdFee
  let ihrFee ← toBalance info.ihrFee
  let msgData ← getData toBytes privateKey body bodyCell (textBytes source)
  return {
    source, destination, value, fwdFee, ihrFee, msgData
    createdLt := Int64.ofNat info.createdLt
    bodyHash := bodyCell.getHash maxLevel }

/-- The switch in `to_raw_message`. -/
def ofInfo (privateKey : Option PrivateKey) (info body : CellSlice) (bodyCell : Cell) : Result RawMessage :=
  match CommonMsgInfo.getTag info with
  | none => fail "Failed to read CommonMsgInfo tag"
  | some (0, _) => do
    let info ← orFail (.ok (unpackExact CommonMsgInfo.unpackIntMsgInfo info))
      "Failed to unpack CommonMsgInfo::int_msg_info"
    ofIntMsgInfo toBytes privateKey info body bodyCell
  | some (1, _) => do
    let info ← orFail (.ok (unpackExact CommonMsgInfo.unpackExtInMsgInfo info))
      "Failed to unpack CommonMsgInfo::ext_in_msg_info"
    let destination ← toStdAddress info.dest
    let msgData ← getData toBytes privateKey body bodyCell []
    return { destination, msgData, bodyHash := bodyCell.getHash maxLevel }
  | some (_, _) => do
    let info ← orFail (.ok (unpackExact CommonMsgInfo.unpackExtOutMsgInfo info))
      "Failed to unpack CommonMsgInfo::ext_out_msg_info"
    let source ← toStdAddress info.src
    let msgData ← getData toBytes privateKey body bodyCell (textBytes source)
    return { source, msgData, bodyHash := bodyCell.getHash maxLevel }

/-- `to_raw_message`. -/
def toRawMessage (privateKey : Option PrivateKey) (cell : Cell) : Result RawMessage := tryVm do
  let message ← orFail (unpackCell Message.unpack ⟨cell, .none⟩) "Failed to unpack Message"
  let body ← messageBody message.body
  let bodyCell ← bodyCell body
  ofInfo toBytes privateKey message.info body bodyCell

/-! ## The text of the source -/

open SendGrams.GenericCreateSendGrams (salt)

/-- The source of a message, as its account is written: a workchain that a byte has no room for takes the other form. -/
inductive IsSource (a : StdAddress) (src : CellSlice) : Prop
  | std {rest : CellSlice} {addr : MsgAddressInt.AddrStd} (tag : MsgAddressInt.getTag src = some (0, rest))
    (unpack : unpackExact MsgAddressInt.unpackAddrStd src = some addr) (workchain : addr.workchainId = a.workchain.toInt)
    (address : addr.address = a.addr)
  | var {rest : CellSlice} (wide : ¬ StdAddress.FitsByte a.workchain) (tag : MsgAddressInt.getTag src = some (1, rest))

omit [Crypto] [Digest] in
/-- The text that is made of the message's source is the one that a comment is encrypted with. -/
theorem toStdAddress_of_isSource {a : StdAddress} {src : CellSlice} (h : IsSource a src) :
    toStdAddress src = .ok (salt a) := by
  cases h with
  | std tag unpack workchain address =>
    unfold toStdAddress
    rw [tag]
    dsimp only
    rw [if_neg (not_not.2 rfl), unpack]
    dsimp only
    rw [workchain, address, Int32.ofInt_toInt]
    rfl
  | var wide tag =>
    have hsalt : salt a = [] :=
      StdAddress.rserialize_eq_nil (a := { a with bounceable := true, testnet := false }) wide true
    unfold toStdAddress
    rw [tag, hsalt]
    rfl

/-! ## Encrypted bodies -/

/-- A body that holds what was stored, in the message or in a cell of its own. -/
inductive HoldsBody (body : CellSlice) (stored : Slice) : Prop
  | inline (h : body.Holds ((bitsSlice [false]).append stored))
  | ref (virt : body.virt = .none) (h : body.Holds ⟨[true], [.mk false stored.bits stored.refs]⟩)

/-- A type and a string behind it, as `store_gift_message` stores them. -/
structure Carries (type : Nat) (text : Bytes) (stored : Slice) : Prop where
  length : stored.bits.length ≤ maxBits
  refs : ∀ c ∈ stored.refs, c.Within CellString.maxChainLength
  type : stored.bits.take 32 = natToBits 32 type
  string : CellString.Holds CellString.maxChainLength ⟨stored.bits.drop 32, stored.refs⟩ text

omit [Crypto] in
theorem Carries.length_refs {type : Nat} {text : Bytes} {stored : Slice} (h : Carries type text stored) :
    stored.refs.length ≤ maxRefs := by
  rcases h.string.bits with ⟨hrefs, -⟩ | ⟨c, rest, hrefs, -, -⟩
  · rw [show stored.refs = [] from hrefs]
    exact Nat.zero_le _
  · rw [show stored.refs = [c] from hrefs]
    exact Nat.le_of_ble_eq_true rfl

omit [Crypto] in
theorem Carries.within {type : Nat} {text : Bytes} {stored : Slice} (h : Carries type text stored) :
    (Cell.mk false stored.bits stored.refs).Within maxDepth :=
  (Cell.Within.node h.refs stored.bits).mono (Nat.le_of_ble_eq_true rfl)

omit [Crypto] in
/-- The body is found. -/
theorem messageBody_of_holdsBody {type : Nat} {text : Bytes} {stored : Slice} {body : CellSlice}
    (hbody : HoldsBody body stored) (hcarries : Carries type text stored) :
    ∃ cs, messageBody body = .ok cs ∧ cs.Holds stored := by
  cases hbody with
  | inline h =>
    have htag : body.prefetchEq 1 0 = true := by
      unfold CellSlice.prefetchEq CellSlice.size
      rw [h.bits]
      rfl
    unfold messageBody
    rw [if_pos htag]
    refine ⟨_, rfl, ?_, h.refs⟩
    rw [h.bits]
    rfl
  | ref virt h =>
    obtain ⟨c, hc⟩ : ∃ c, c = Cell.mk false stored.bits stored.refs := ⟨_, rfl⟩
    have htag : ¬ body.prefetchEq 1 0 = true := by
      unfold CellSlice.prefetchEq CellSlice.size
      rw [h.bits]
      exact Bool.false_ne_true
    have hlevel : c.levelMask.getLevel ≤ maxVirtLevel := by
      have hmask := (LevelMask.getLevel_le_iff _).2 (hc ▸ hcarries.within.level)
      exact hmask.trans (Nat.le_of_ble_eq_true rfl)
    have hvirt : CellRef.virtualize ⟨c, .none⟩ body.childVirt = ⟨c, .none⟩ := by
      unfold CellSlice.childVirt
      rw [virt]
      exact if_pos hlevel
    have hfetch : body.prefetchRef 0 = some ⟨c, .none⟩ := by
      unfold CellSlice.prefetchRef
      rw [h.refs, ← hc, ← hvirt]
      rfl
    unfold messageBody
    rw [if_neg htag, hfetch, hc]
    exact ⟨_, rfl, rfl, rfl⟩

omit [Crypto] in
/-- The body makes a cell. -/
theorem bodyCell_of_holds {type : Nat} {text : Bytes} {stored : Slice} {cs : CellSlice} (hcs : cs.Holds stored)
    (hcarries : Carries type text stored) : ∃ c, bodyCell cs = .ok c := by
  have happend : CellBuilder.appendSliceBool ⟨cs.bits, cs.refs⟩ {} = some ⟨stored.bits, stored.refs⟩ := by
    rw [hcs.bits, hcs.refs]
    rcases CellBuilder.appendSliceBool_cases stored {} with h | ⟨-, hbits | hrefs⟩
    · exact h
    · have hlength := hcarries.length
      rw [List.length_nil, Nat.zero_add] at hbits
      omega
    · have hlength := hcarries.length_refs
      rw [List.length_nil, Nat.zero_add] at hrefs
      omega
  have hcell := CellBuilder.cellOf_eq hcarries.length hcarries.length_refs hcarries.within
  rw [← CellBuilder.toOption_finalize ⟨stored.bits, stored.refs⟩] at hcell
  unfold bodyCell
  rw [happend]
  change ∃ c, (CellBuilder.mk stored.bits stored.refs).finalize = .ok c
  cases hfinal : (CellBuilder.mk stored.bits stored.refs).finalize with
  | error f =>
    rw [hfinal] at hcell
    cases hcell
  | ok c => exact ⟨c, rfl⟩

/-- An encrypted text is opened with the key, if the salt is the right one. -/
theorem getData_encrypted {text salt data : Bytes} {stored : Slice} {cs : CellSlice} {key : PrivateKey} (bodyCell : Cell)
    (hcs : cs.Holds stored) (hcarries : Carries 1 text stored)
    (hdecrypt : ∃ d, SimpleEncryptionV2.decryptData text key salt = .ok d ∧ d.data = data) :
    getData toBytes (some key) cs bodyCell salt = .ok (.decryptedText data) := by
  obtain ⟨d, hd, rfl⟩ := hdecrypt
  have htype : bitsToNat (cs.bits.take 32) = 1 := by
    rw [hcs.bits, hcarries.type, bitsToNat_natToBits]
    rfl
  have hsize : 32 ≤ cs.size := by
    have hlength := congrArg List.length hcarries.type
    rw [List.length_take, length_natToBits, ← hcs.bits] at hlength
    exact min_eq_left_iff.1 hlength
  have hload : CellString.load { cs with bits := cs.bits.drop 32 } maxBits = .ok text := by
    refine CellString.load_of_holds hcarries.string ⟨?_, hcs.refs⟩
    rw [← hcs.bits]
  unfold getData
  rw [if_pos ⟨hsize, htype.le⟩, SendGrams.GenericCreateSendGrams.attempt_of_ok hload]
  change (if _ then _ else encryptedData (some key) text salt) = _
  rw [htype, if_neg Nat.one_ne_zero]
  unfold encryptedData
  dsimp only
  rw [SendGrams.GenericCreateSendGrams.attempt_of_ok hd]
  rfl

end ToRawTransactions

end TonWallet.Tonlib
