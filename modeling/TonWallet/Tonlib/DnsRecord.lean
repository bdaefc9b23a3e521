/-
The values of DNS entries: requests for them (`to_dns_entry_data`), the cells that are signed and published (`as_cell`), and
how the cells are read (`from_cellslice`) and shown (`to_tonlib_api`). A record of an address has no room for the flags of
the address, and takes any workchain.
-/
import TonWallet.SmcEnvelope.InitialState
import TonWallet.SmcEnvelope.SignedPromise
import TonWallet.Td.Base32
import TonWallet.Tonlib.CreateSendGrams
import TonWallet.Tonlib.DnsResolve

namespace TonWallet.Tonlib

open Lib TonWallet.Td TonWallet.Ton TonWallet.Vm TonWallet.Vm.Fetch TonWallet.Vm.CellBuilder TonWallet.Block
  TonWallet.SmcEnvelope

/-! ## Types that are run over -/

/-- `TextChunkRef::skip`. -/
def textChunkRefSkip (m : Nat) : Fetch Unit := if m ≠ 0 then advanceExt 0 1 else return

/-- `TextChunks::skip`. -/
def textChunksSkip (m : Nat) : Fetch Unit :=
  if m ≠ 0 then do
    let len ← fetchUintInt 8
    advance (8 * len)
    textChunkRefSkip (m - 1)
  else return

/-- `Text::skip`. -/
def textSkip : Fetch Unit := do textChunksSkip (← fetchUintInt 8)

/-- A field that is run over from its beginning. -/
def skipSlice (skip : Fetch Unit) (field : Slice) : Option Slice :=
  (skip (.ofCell ⟨.mk false field.bits field.refs, .none⟩)).map fun r => ⟨r.2.bits, r.2.refs⟩

/-! ## Cells of records -/

/-- The end of a record with flags. There is no list for it to store. -/
def storeFlags (flags : Int32) (cb : CellBuilder) : Option CellBuilder := do
  let value := flags.toInt64.toUInt64.toNat
  guard (value < 2 ^ 8)
  let cb ← cb.storeLongBool value 8
  guard (flags ≤ 1 ∧ flags &&& 1 = 0)
  return cb

namespace DnsEntryData

/-- `dns_adnl_address`. -/
def packAdnlAddress (adnlAddr : Bits256) (flags : Int32) : Option CellBuilder := do
  let cb ← storeLongBool 0xad01 16 {}
  let cb ← cb.appendSliceBool ⟨natToBits 256 adnlAddr.toNat, []⟩
  storeFlags flags cb

section

variable [Digest]

/-- `pack_cell`; `none`: nothing was packed. -/
def packCell (cb : Option CellBuilder) : Result (Option Cell) := match cb with
  | some cb => do return some (← cb.finalize)
  | none => .ok none

/-- The text behind the tag; whether it is stored is not looked at. -/
def textSlice (bytes : List UInt8) : Result Slice := match BuilderMethod.run (CellText.storeTo bytes maxBits) {} with
  | (.ok _, cb) => do PaymentChannel.loadSlice (some (← cb.finalize))
  | (.error (.status _), cb) => do PaymentChannel.loadSlice (some (← cb.finalize))
  | (.error e, _) => .error e

/-- The address behind a tag; whether it is stored is not looked at. -/
def addressSlice (a : StdAddress) : Result Slice := do
  let c ← ((PaymentChannel.storeStdAddress a {}).getD {}).finalize
  PaymentChannel.loadSlice (some c)

/-- `dns_text`. -/
def packText (x : Slice) : Option CellBuilder := do x.storeFrom (skipSlice textSkip) (← storeLongBool 0x1eda 16 {})

/-- `dns_next_resolver`. -/
def packNextResolver (resolver : Slice) : Option CellBuilder := do
  resolver.storeFrom (skipSlice MsgAddressInt.skip) (← storeLongBool 0xba93 16 {})

/-- `dns_smc_address`. -/
def packSmcAddress (smcAddr : Slice) (flags : Int32) : Option CellBuilder := do
  let cb ← smcAddr.storeFrom (skipSlice MsgAddressInt.skip) (← storeLongBool 0x9fd3 16 {})
  storeFlags flags cb

/-- What `as_cell` visits; `uninitialized`: the flags of a record of a contract, which nothing sets. -/
def toRecord (uninitialized : Int32) : Option DnsEntryData → Result (Option Cell)
  | none => .ok none
  | some (.text bytes) => do packCell (packText (← textSlice bytes))
  | some (.nextResolver resolver) => do packCell (packNextResolver (← addressSlice resolver))
  | some (.adnlAddress adnlAddr) => packCell (packAdnlAddress adnlAddr 0)
  | some (.smcAddress smcAddr) => do packCell (packSmcAddress (← addressSlice smcAddr) uninitialized)

/-- `as_cell`; `none`: an `EntryData` without data. -/
def asCell (uninitialized : Int32) (data : Option DnsEntryData) : Result Cell := do
  match ← toRecord uninitialized data with
  | some res => return res
  | none => fail "Entry data is emtpy"

end

/-! ## Reading records -/

/-- `extract_std_address`. -/
def extractStdAddress : Fetch (Int32 × Bits256) := do
  let _ ← prefetchUint (3 + 8 + 64)
  let t ← prefetchUint (2 + 1 + 5)
  if t >>> 5 = 4 then
    advance 3
    let workchain ← fetchInt 8
    return (.ofInt workchain, ← fetchHash)
  else if t >>> 5 = 5 then
    advance 8
    let rewrite ← fetchUint (t &&& 31)
    let workchain ← fetchInt 8
    let addr ← fetchHash
    return (.ofInt workchain, .ofNat 256 (bitsToNat (natToBits (t &&& 31) rewrite ++ (natToBits 256 addr.toNat).drop (t &&& 31))))
  else if t >>> 5 = 6 then
    advance 3
    let len ← fetchUintInt 9
    guard (len = 256)
    let workchain ← fetchInt 32
    return (.ofInt workchain, ← fetchHash)
  else if t >>> 5 = 7 then
    advance 8
    let rewrite ← fetchUint (t &&& 31)
    let len ← fetchUintInt 9
    guard (len = 256)
    let workchain ← fetchInt 32
    let addr ← fetchHash
    return (.ofInt workchain, .ofNat 256 (bitsToNat (natToBits (t &&& 31) rewrite ++ (natToBits 256 addr.toNat).drop (t &&& 31))))
  else failure

/-- An address in a record, if one was unpacked. -/
def readAddress (field : Option (CellSlice × CellSlice)) : Result StdAddress :=
  match field.bind fun field => extractStdAddress field.1 with
  | some ((workchain, addr), _) => .ok { workchain, addr }
  | none => fail "Invalid address"

/-- `from_cellslice`; whether a record is unpacked is not looked at. `uninitialized`: the address of a new record. -/
def fromCellslice [Digest] (uninitialized : Bits256) (cs : CellSlice) : Result DnsEntryData :=
  match bselect 4 0xe02 cs with
  | some (0, _) => match (do fetchTag 16 0x1eda; fetchTo textSkip : Fetch CellSlice) cs with
    | some (x, _) => do return .text (← CellText.load x)
    | none => .error (.check "ptr && deferencing null Ref")
  | some (3, _) => do return .nextResolver (← readAddress ((do fetchTag 16 0xba93; fetchTo MsgAddressInt.skip : Fetch _) cs))
  | some (2, _) => match (do fetchTag 16 0xad01; fetchHash : Fetch Bits256) cs with
    | some (adnlAddr, _) => return .adnlAddress adnlAddr
    | none => return .adnlAddress uninitialized
  | some (1, _) => do return .smcAddress (← readAddress ((do fetchTag 16 0x9fd3; fetchTo MsgAddressInt.skip : Fetch _) cs))
  | _ => fail "Unknown entry data"

end DnsEntryData

/-! ## Requests -/

/-- `dns_EntryData`. -/
inductive DnsApiEntryData
  | unknown (bytes : List UInt8)
  | text (text : List UInt8)
  | nextResolver (resolver : Option (List Char))
  | smcAddress (smcAddress : Option (List Char))
  | adnlAddress (adnlAddress : Option (List Char))

/-- `get_adnl_address`. -/
def getAdnlAddress (adnlAddress : List Char) : Result Bits256 :=
  tryPrefix (SendGrams.invalidField "adnl_address" "can't decode") (adnlIdDecode adnlAddress)

/-- `to_dns_entry_data`; `none`: an `EntryData` without data. -/
def toDnsEntryData (uninitialized : Fin 36 → UInt8) : DnsApiEntryData → Result (Option DnsEntryData)
  | .unknown _ => .ok none
  | .nextResolver none => SendGrams.failWith (SendGrams.emptyField "resolver")
  | .nextResolver (some resolver) => do return some (.nextResolver (← getAccountAddress uninitialized resolver))
  | .smcAddress none => SendGrams.failWith (SendGrams.emptyField "smc_address")
  | .smcAddress (some address) => do return some (.smcAddress (← getAccountAddress uninitialized address))
  | .adnlAddress none => SendGrams.failWith (SendGrams.emptyField "adnl_address")
  | .adnlAddress (some address) => do return some (.adnlAddress (← getAdnlAddress address))
  | .text text => .ok (some (.text text))

/-- `to_tonlib_api`. -/
def DnsEntryData.toTonlibApi : Option DnsEntryData → Result DnsApiEntryData
  | none => .error (.status (TonlibError.internal "Unexpected empty EntryData"))
  | some (.text bytes) => .ok (.text bytes)
  | some (.nextResolver resolver) => .ok (.nextResolver (some (resolver.rserialize true)))
  | some (.adnlAddress adnlAddr) => .ok (.adnlAddress (some (adnlIdEncode adnlAddr)))
  | some (.smcAddress smcAddr) => .ok (.smcAddress (some (smcAddr.rserialize true)))

namespace DnsEntryData

/-! ## Fields that are stored and cut out again -/

theorem skipSlice_of_fetches {skip : Fetch Unit} {s : Slice} (h : Fetches skip s fun _ => True) :
    skipSlice skip s = some ⟨[], []⟩ := by
  obtain ⟨_, hskip, -⟩ := h (.ofCell ⟨.mk false s.bits s.refs, .none⟩) .empty (by
    rw [Slice.append_empty]
    exact ⟨rfl, rfl⟩)
  rw [skipSlice, hskip]
  rfl

/-- A field that is run over is stored where there is room. -/
theorem storeFrom_of_fetches {skip : Fetch Unit} {s : Slice} (h : Fetches skip s fun _ => True) {cb : CellBuilder}
    (hbits : cb.bits.length + s.bits.length ≤ maxBits) (hrefs : cb.refs.length + s.refs.length ≤ maxRefs) :
    s.storeFrom (skipSlice skip) cb = some ⟨cb.bits ++ s.bits, cb.refs ++ s.refs⟩ := by
  rw [Slice.storeFrom, skipSlice_of_fetches h]
  show ((guard (([] : List Bool) = [] ∧ ([] : List Cell) = []) : Option Unit) >>= fun _ => cb.appendSliceBool s) = _
  rw [guard, if_pos ⟨rfl, rfl⟩, appendSliceBool, if_pos]
  · rfl
  · simp only [canExtendBy, Bool.and_eq_true, decide_eq_true_eq]
    omega

/-- A field for which there is no room is not stored, whatever it is. -/
theorem storeFrom_of_long (skip : Slice → Option Slice) {s : Slice} {cb : CellBuilder} (hcb : cb.bits.length ≤ maxBits)
    (h : maxBits < cb.bits.length + s.bits.length) : s.storeFrom skip cb = none := by
  have hfull : cb.appendSliceBool s = none := by
    rw [appendSliceBool, if_neg]
    simp only [canExtendBy, Bool.and_eq_true, decide_eq_true_eq, not_and_or]
    exact .inl (by omega)
  cases hskip : skip s with
  | none => rw [Slice.storeFrom, hskip]; rfl
  | some rest =>
    rw [Slice.storeFrom, hskip]
    show ((guard (rest.bits = [] ∧ rest.refs = []) : Option Unit) >>= fun _ => cb.appendSliceBool s) = _
    rw [hfull]
    by_cases hall : rest.bits = [] ∧ rest.refs = []
    · rw [guard, if_pos hall]
      rfl
    · rw [guard, if_neg hall]
      rfl

theorem storeTag (tag : Nat) : storeLongBool tag 16 {} = some ⟨natToBits 16 tag, []⟩ := by
  rw [storeLongBool]
  exact appendSliceBool_ok (natToBits 16 tag) ⟨[], []⟩ (by simp [maxBits])

/-- The constructor that the first bits of a record tell. -/
theorem bselect_of_tag {tag k : Nat} (hk : (List.range (bitsToNat ((natToBits 16 tag).take 4) + 1)).countP (0xe02).testBit = k + 1)
    {cs : CellSlice} {rest : Slice} (hcs : cs.Holds (Slice.append ⟨natToBits 16 tag, []⟩ rest)) :
    bselect 4 0xe02 cs = some (k, cs) := by
  have hsize : 4 ≤ cs.size := by
    rw [CellSlice.size, hcs.bits, Slice.append_bits, List.length_append, length_natToBits]
    omega
  have htake : cs.bits.take 4 = (natToBits 16 tag).take 4 := by
    rw [hcs.bits, Slice.append_bits, List.take_append_of_le_length (by rw [length_natToBits]; decide)]
  show (prefetchUint 4 cs).bind _ = _
  rw [prefetchUint, if_pos hsize, htake]
  show ((guard (0 < (List.range _).countP _) : Fetch Unit) >>= fun _ => Pure.pure _) cs = _
  rw [hk, guard, if_pos (Nat.zero_lt_succ k)]
  rfl

/-- The field behind a tag. -/
theorem fetches_field {tag : Nat} (htag : tag < 2 ^ 16) {skip : Fetch Unit} {s : Slice} (h : Fetches skip s fun _ => True) :
    Fetches (do fetchTag 16 tag; fetchTo skip : Fetch CellSlice) (Slice.append ⟨natToBits 16 tag, []⟩ s) (·.Holds s) := by
  refine (Fetches.fetchTag (length_natToBits 16 tag) ?_).bind fun _ _ => Fetches.fetchTo h
  rw [bitsToNat_natToBits, Nat.mod_eq_of_lt htag]

/-! ## Addresses -/

/-- The bits of an address: one byte of the workchain, or all of it. -/
def addressBits (a : StdAddress) : List Bool :=
  if -128 ≤ a.workchain.toInt ∧ a.workchain.toInt < 128 then
    natToBits 3 4 ++ natToBits 8 (a.workchain.toBitVec.toNat % 2 ^ 8) ++ natToBits 256 a.addr.toNat
  else natToBits 12 0xd00 ++ natToBits 32 a.workchain.toBitVec.toNat ++ natToBits 256 a.addr.toNat

theorem length_addressBits (a : StdAddress) : (addressBits a).length ≤ 300 := by
  unfold addressBits
  split <;> simp

theorem storeStdAddress_ok (a : StdAddress) : PaymentChannel.storeStdAddress a {} = some ⟨addressBits a, []⟩ := by
  unfold PaymentChannel.storeStdAddress addressBits storeLongBool keyBits
  split
  · rw [appendSliceBool_ok _ _ (by simp [maxBits]), Option.bind_some, appendSliceBool_ok _ _ (by simp [maxBits]),
      Option.bind_some, appendSliceBool_ok _ _ (by simp [maxBits])]
    rfl
  · rw [appendSliceBool_ok _ _ (by simp [maxBits]), Option.bind_some, appendSliceBool_ok _ _ (by simp [maxBits]),
      Option.bind_some, appendSliceBool_ok _ _ (by simp [maxBits])]
    rfl

theorem addressBits_of_fits {a : StdAddress} (h : StdAddress.FitsByte a.workchain) :
    (⟨addressBits a, []⟩ : Slice) = addrStdSlice (storedWorkchain a.workchain) a.addr := by
  have hlow : natToBits 8 (a.workchain.toBitVec.toNat % 2 ^ 8) = natToBits 8 (storedWorkchain a.workchain).toNat := by
    have hvalue : a.workchain.toBitVec.toNat % 2 ^ 8 = (storedWorkchain a.workchain).toNat := by
      have hwide : (a.workchain.toBitVec.toNat : Int) = a.workchain.toInt % 2 ^ 32 := (toInt_emod a.workchain.toBitVec).symm
      rw [storedWorkchain, BitVec.toNat_ofInt]
      push_cast
      omega
    rw [hvalue]
  rw [addressBits, if_pos (show -128 ≤ a.workchain.toInt ∧ a.workchain.toInt < 128 from h), hlow]
  simp only [addrStdSlice, nothingSlice, bitsSlice, Slice.append, List.append_nil, List.append_assoc]
  rfl

/-- The form with the whole workchain. -/
def addrVarSlice (workchain : BitVec 32) (address : Bits256) : Slice :=
  (bitsSlice [true, true]).append <| nothingSlice.append <| (bitsSlice (natToBits 9 256)).append <|
    (bitsSlice (natToBits 32 workchain.toNat)).append <| bitsSlice (natToBits 256 address.toNat)

theorem addressBits_of_not_fits {a : StdAddress} (h : ¬ StdAddress.FitsByte a.workchain) :
    (⟨addressBits a, []⟩ : Slice) = addrVarSlice a.workchain.toBitVec a.addr := by
  rw [addressBits, if_neg (show ¬ (-128 ≤ a.workchain.toInt ∧ a.workchain.toInt < 128) from h)]
  simp only [addrVarSlice, nothingSlice, bitsSlice, Slice.append, List.append_nil, List.append_assoc]
  rfl

theorem fetches_addrVar (workchain : BitVec 32) (address : Bits256) :
    Fetches MsgAddressInt.skip (addrVarSlice workchain address) fun _ => True := by
  have htag : (addrVarSlice workchain address).bits.take 2 = [true, true] := rfl
  refine Fetches.bselect (k := 1) (Nat.le_add_left 2 _) (by rw [htag]; decide) ?_
  refine (Fetches.advance rfl).bind fun _ _ => (fetches_nothing skipAnycast).bind fun _ _ => ?_
  refine (Fetches.fetchUint_natToBits (show 256 < 2 ^ 9 by decide)).bind fun len hlen => ?_
  refine (Fetches.advance (length_natToBits 32 _)).bind fun _ _ => ?_
  rw [hlen]
  exact Fetches.advance (length_natToBits 256 _)

theorem fetches_address (a : StdAddress) : Fetches MsgAddressInt.skip ⟨addressBits a, []⟩ fun _ => True := by
  by_cases h : StdAddress.FitsByte a.workchain
  · rw [addressBits_of_fits h]
    exact fetches_addrStd
  · rw [addressBits_of_not_fits h]
    exact fetches_addrVar _ _

/-- The tag in the first three of eight bits. -/
theorem shiftRight_tag (tag more : List Bool) (h : more.length = 5) : bitsToNat (tag ++ more) >>> 5 = bitsToNat tag := by
  have hlt := bitsToNat_lt more
  rw [h] at hlt
  rw [bitsToNat_append, h, Nat.shiftRight_eq_div_pow, Nat.mul_add_div (by decide), Nat.div_eq_of_lt hlt, Nat.add_zero]

/-- What is looked at before an address is read. -/
theorem fetches_extract {s : Slice} {tag : List Bool} {a : Int32 × Bits256} (hlen : 75 ≤ s.bits.length)
    (htag : s.bits.take 3 = tag) {g : Nat → Fetch (Int32 × Bits256)}
    (h : ∀ t, t >>> 5 = bitsToNat tag → Fetches (g t) s (· = a)) :
    Fetches (do let _ ← prefetchUint (3 + 8 + 64); let t ← prefetchUint (2 + 1 + 5); g t) s (· = a) := by
  refine Fetches.prefetch hlen (Fetches.prefetch (show 8 ≤ _ by omega) (h _ ?_))
  have hsplit : s.bits.take 8 = tag ++ (s.bits.drop 3).take 5 := by
    rw [← htag, ← List.take_add]
  rw [show 2 + 1 + 5 = 8 from rfl, hsplit]
  exact shiftRight_tag _ _ (by rw [List.length_take, List.length_drop]; omega)

/-- An address is read from either form. -/
theorem fetches_extractStdAddress (a : StdAddress) :
    Fetches extractStdAddress ⟨addressBits a, []⟩ (· = (a.workchain, a.addr)) := by
  unfold extractStdAddress
  by_cases h : StdAddress.FitsByte a.workchain
  · have hslice := addressBits_of_fits h
    have hwc : Int32.ofInt (storedWorkchain a.workchain).toInt = a.workchain := by
      rw [toInt_storedWorkchain h, Int32.ofInt_toInt]
    have hread : Fetches (do
        advance 3
        let workchain ← fetchInt 8
        return (Int32.ofInt workchain, ← fetchHash) : Fetch (Int32 × Bits256)) (addrStdSlice (storedWorkchain a.workchain) a.addr)
        (· = (a.workchain, a.addr)) := by
      have hparts : addrStdSlice (storedWorkchain a.workchain) a.addr = Slice.append ⟨[true, false, false], []⟩
          (Slice.append ⟨natToBits 8 (storedWorkchain a.workchain).toNat, []⟩ ⟨natToBits 256 a.addr.toNat, []⟩) := rfl
      rw [hparts]
      refine (Fetches.advance rfl).bind fun _ _ => (Fetches.fetchInt (storedWorkchain a.workchain)).bind fun w hw => ?_
      exact (Fetches.fetchHash a.addr).map fun x hx => by rw [hw, hwc, hx]
    refine @fetches_extract _ [true, false, false] _ ?_ ?_ _ fun t ht => ?_
    · rw [hslice]
      simp [addrStdSlice, nothingSlice, bitsSlice, Slice.append]
    · rw [hslice]
      rfl
    · rw [if_pos (show t >>> 5 = 4 from ht), hslice]
      exact hread
  · have hslice := addressBits_of_not_fits h
    have hread : Fetches (do
        advance 3
        let len ← fetchUintInt 9
        guard (len = 256)
        let workchain ← fetchInt 32
        return (Int32.ofInt workchain, ← fetchHash) : Fetch (Int32 × Bits256)) (addrVarSlice a.workchain.toBitVec a.addr)
        (· = (a.workchain, a.addr)) := by
      have hparts : addrVarSlice a.workchain.toBitVec a.addr = Slice.append ⟨[true, true, false], []⟩
          (Slice.append ⟨natToBits 9 256, []⟩ (Slice.append ⟨natToBits 32 a.workchain.toBitVec.toNat, []⟩
            ⟨natToBits 256 a.addr.toNat, []⟩)) := rfl
      rw [hparts]
      refine (Fetches.advance rfl).bind fun _ _ =>
        (Fetches.fetchUintInt (show 256 < 2 ^ 9 by decide) (by decide)).bind fun len hlen => Fetches.guard_bind hlen ?_
      refine (Fetches.fetchInt a.workchain.toBitVec).bind fun w hw => ?_
      exact (Fetches.fetchHash a.addr).map fun x hx => by rw [hw, hx]; exact Prod.ext (Int32.ofInt_toInt _) rfl
    refine @fetches_extract _ [true, true, false] _ ?_ ?_ _ fun t ht => ?_
    · rw [hslice]
      simp [addrVarSlice, nothingSlice, bitsSlice, Slice.append]
    · rw [hslice]
      rfl
    · have hsix : t >>> 5 = 6 := ht
      rw [hsix, if_neg (by decide), if_neg (by decide), if_pos rfl, hslice]
      exact hread


/-! ## Texts -/

/-- The slice of a text that fits a record. -/
def shortText (bytes : List UInt8) : Slice :=
  ⟨if bytes = [] then natToBits 8 0 else natToBits 8 1 ++ (natToBits 8 bytes.length ++ bytesToBits bytes), []⟩

theorem length_shortText (bytes : List UInt8) : (shortText bytes).bits.length ≤ 16 + 8 * bytes.length := by
  unfold shortText
  split
  · rw [length_natToBits]
    omega
  · simp only [List.length_append, length_natToBits, length_bytesToBits]
    omega

theorem fetches_shortText {bytes : List UInt8} (h : bytes.length ≤ 123) : Fetches textSkip (shortText bytes) fun _ => True := by
  by_cases hempty : bytes = []
  · have hslice : shortText bytes = Slice.append ⟨natToBits 8 0, []⟩ .empty := by
      rw [Slice.append_empty, shortText, if_pos hempty]
    rw [hslice]
    refine (Fetches.fetchUintInt (show 0 < 2 ^ 8 by decide) (by decide)).bind fun m hm => ?_
    rw [hm]
    exact Fetches.pure trivial
  · have hslice : shortText bytes = Slice.append ⟨natToBits 8 1, []⟩
        (Slice.append ⟨natToBits 8 bytes.length, []⟩ (Slice.append ⟨bytesToBits bytes, []⟩ .empty)) := by
      rw [Slice.append_empty, shortText, if_neg hempty]
      rfl
    rw [hslice]
    refine (Fetches.fetchUintInt (show 1 < 2 ^ 8 by decide) (by decide)).bind fun m hm => ?_
    rw [hm]
    refine (Fetches.fetchUintInt (show bytes.length < 2 ^ 8 by omega) (by omega)).bind fun len hlen => ?_
    rw [hlen]
    refine (Fetches.advance (length_bytesToBits bytes)).bind fun _ _ => ?_
    exact Fetches.pure trivial

section

variable [Digest]

theorem loadSlice_finalize {bits : List Bool} {refs : List Cell} (hbits : bits.length ≤ maxBits) (hrefs : refs.length ≤ maxRefs)
    (hwithin : ∀ c ∈ refs, c.Within (maxDepth - 1)) :
    (do PaymentChannel.loadSlice (some (← CellBuilder.finalize ⟨bits, refs⟩)) : Result Slice) = .ok ⟨bits, refs⟩ := by
  have hcell : CellBuilder.finalize ⟨bits, refs⟩ = .ok (.mk false bits refs) :=
    Vm.finalize_ok hbits hrefs (Cell.Within.node hwithin bits)
  rw [hcell]
  exact PaymentChannel.loadSlice_ordinary (show (Cell.mk false bits refs).special = false from rfl)

/-- How a text is stored into a new builder. -/
theorem run_storeText {bytes : List UInt8} (hmax : bytes.length ≤ 1024) : ∃ s : Slice,
    BuilderMethod.run (CellText.storeTo bytes maxBits) {} = (.ok (), ⟨s.bits, s.refs⟩) ∧
      s.bits.length ≤ maxBits ∧ s.refs.length ≤ maxRefs ∧ (∀ c ∈ s.refs, c.Within (maxDepth - 1)) ∧
      (∀ cs : CellSlice, cs.Holds s → CellText.load cs = .ok bytes) ∧
      (bytes.length ≤ 123 → s = shortText bytes) ∧ (123 < bytes.length → 1008 ≤ s.bits.length) := by
  obtain ⟨hstored, -⟩ := @CellText.storeTo_short _ bytes hmax maxBits {} (Nat.le_of_ble_eq_true rfl) (Nat.le_of_ble_eq_true rfl)
  obtain ⟨s, hrun, -, hload⟩ := hstored (.inr (Nat.zero_lt_succ 3))
  have hrun' : BuilderMethod.run (CellText.storeTo bytes maxBits) {} = (.ok (), ⟨s.bits, s.refs⟩) := hrun
  by_cases hempty : bytes = []
  · subst hempty
    have hnone : BuilderMethod.run (CellText.storeTo [] maxBits) {} = (.ok (), ⟨natToBits 8 0, []⟩) := rfl
    rw [hnone] at hrun'
    have hs : s = shortText [] := by
      obtain ⟨bits, refs⟩ := s
      cases hrun'
      rfl
    refine ⟨s, hrun, ?_⟩
    rw [hs] at hload ⊢
    exact ⟨Nat.le_of_ble_eq_true rfl, Nat.zero_le _, fun c hc => (List.not_mem_nil hc).elim, hload, fun _ => rfl,
      fun h => absurd h (Nat.not_lt_zero _)⟩
  · have hpos : bytes.length ≠ 0 := fun h => hempty (List.length_eq_zero_iff.1 h)
    have hhead : CellText.headBytes bytes maxBits {} = min bytes.length 125 := by
      show min (bytes.length * 8) (min (1023 - 0) 1023 - 16) / 8 = _
      omega
    have hlevel := @CellText.run_storeTo _ bytes hmax maxBits {} (Nat.le_of_ble_eq_true rfl) (Nat.le_of_ble_eq_true rfl) hpos
      _ hhead
    rw [hrun'] at hlevel
    have htake : (bytesToBits (bytes.take (min bytes.length 125))).length = 8 * min bytes.length 125 := by
      rw [length_bytesToBits, List.length_take_of_le (Nat.min_le_left _ _)]
    by_cases hlast : bytes.length ≤ min bytes.length 125
    · rw [if_pos hlast, BuilderMethod.run_pure] at hlevel
      have hall : min bytes.length 125 = bytes.length := by omega
      have hone : (bytes.length - bytes.length + 125) / 126 + 1 = 1 := by omega
      have hs : s = shortText bytes := by
        rw [hall, List.take_length, hone] at hlevel
        obtain ⟨bits, refs⟩ := s
        cases hlevel
        rw [shortText, if_neg hempty]
        rfl
      have hlen : s.bits.length = 16 + 8 * bytes.length := by
        rw [hs, shortText, if_neg hempty]
        simp only [List.length_append, length_natToBits, length_bytesToBits]
        omega
      refine ⟨s, hrun', ?_, ?_, ?_, hload, fun _ => hs, ?_⟩
      · rw [hlen, maxBits]
        omega
      · rw [hs]
        exact Nat.zero_le _
      · rw [hs]
        exact fun c hc => (List.not_mem_nil hc).elim
      · intro hlong
        omega
    · have hrest : (bytes.drop (min bytes.length 125)).length = bytes.length - min bytes.length 125 := List.length_drop
      obtain ⟨c, hchild, -, hwithin⟩ := @CellText.doStore_ok _ CellText.maxChainLength (bytes.drop (min bytes.length 125))
        (by omega) (by rw [hrest, CellText.maxChainLength]; omega) (Nat.le_refl _)
      have hcall := BuilderMethod.run_call (CellText.doStore (bytes.drop (min bytes.length 125)))
        ⟨[] ++ (natToBits 8 ((bytes.length - min bytes.length 125 + 125) / 126 + 1) ++
          (natToBits 8 (min bytes.length 125) ++ bytesToBits (bytes.take (min bytes.length 125)))), []⟩
      rw [hchild] at hcall
      rw [if_neg hlast, hchild, BuilderMethod.run_bind_ok hcall,
        BuilderMethod.run_build_ok (storeRef_fresh c _)] at hlevel
      have hlen : s.bits.length = 16 + 8 * min bytes.length 125 := by
        have hbits := congrArg (fun r => r.2.bits.length) hlevel
        simp only [List.nil_append, List.length_append, length_natToBits, htake] at hbits
        omega
      have hrefs : s.refs = [c] := congrArg (fun r => r.2.refs) hlevel
      refine ⟨s, hrun', ?_, ?_, ?_, hload, ?_, ?_⟩
      · rw [hlen, maxBits]
        omega
      · rw [hrefs]
        exact Nat.le_of_ble_eq_true rfl
      · rw [hrefs]
        exact List.forall_mem_singleton.2 (hwithin.mono (Nat.le_of_ble_eq_true rfl))
      · intro hshort
        omega
      · intro _
        omega

end

end DnsEntryData

end TonWallet.Tonlib
