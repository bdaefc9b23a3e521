/-
The limits of a restricted wallet: the request that sets them (`do_rwallet_action`), the message that carries them to the
contract (`RestrictedWallet::get_init_message`), and how they are read from its data (`get_config`). They travel as a
dictionary from the seconds to the amounts, so of limits with the same seconds one is left.
-/
import TonWallet.SmcEnvelope.SignedBody
import TonWallet.Tonlib.CreateSendGrams
import TonWallet.Vm.Dict.CheckForEach
import TonWallet.Vm.DictionaryFill

namespace TonWallet.SmcEnvelope.RestrictedWallet

open Lib TonWallet.Td TonWallet.Ton TonWallet.Vm TonWallet.Vm.CellBuilder TonWallet.Vm.DictionaryBase TonWallet.Vm.Dictionary
  TonWallet.Block PaymentChannel

/-- `RestrictedWallet::Config`. -/
structure Config where
  startAt : UInt32 := 0
  limits : List (Int32 × UInt64) := []
  deriving DecidableEq

/-! ## The message -/

/-- What `add` sets in the dictionary. -/
def limitEntry (limit : Int32 × UInt64) : Result (List Bool × CellBuilder) :=
  let key := natToBits 32 limit.1.toBitVec.toNat
  let gcb := (storeGrams (some limit.2.toInt64.toInt) {}).2
  .ok (key, gcb)

theorem keyBits_le : 32 ≤ maxKeyBits := by decide

section

variable [Digest]

/-- The dictionary of some limits, with its key of 32 bits. -/
def limitsDict (limits : List (Int32 × UInt64)) : Result DictionaryBase :=
  match run (fillWith limitEntry limits) ⟨32, none, keyBits_le⟩ with
  | (.ok (), dict) => .ok dict
  | (.error e, _) => .error e

/-- `get_init_message`, with what the get methods of the contract answer. -/
def getInitMessage (sign : Bits256 → List UInt8) (getSeqno getWalletId : Result UInt32) (validUntil : UInt32)
    (config : Config) : Result Cell := do
  let seqno ← getSeqno
  let walletId ← getWalletId
  if seqno ≠ 0 then fail "Wallet is already inited"
  else
    let cb ← storeBits (natToBits 32 walletId.toNat) {}
    let cb ← cb.storeBits (natToBits 32 validUntil.toNat)
    let cb ← cb.storeBits (natToBits 32 seqno.toNat)
    let cb ← cb.storeBits (natToBits 32 config.startAt.toNat)
    let dict ← limitsDict config.limits
    -- the builder has room for the reference, so nothing else can come of it
    signedBody sign ((CurrencyCollection.storeMaybeRef dict.rootCell cb).getD cb)

end

/-! ## The data -/

/-- `fetch_maybe_ref` of the last part of a slice. -/
def configHead (cs : Slice) : Option (UInt32 × Option Cell) := do
  let cs ← cs.advance (32 + 32 + 256)
  let (startAt, cs) ← cs.fetchUintTo 32
  let dictRoot ← cs.prefetchMaybeRef
  return (UInt32.ofNat startAt, dictRoot)

/-- The callback of `get_config`. A key of 32 bits is an `int32`. -/
def addLimit (key : List Bool) (cs : Slice) (limits : List (Int32 × UInt64)) : Bool × List (Int32 × UInt64) :=
  match unpackGrams cs with
  | some value => (true, limits ++ [(.ofBitVec (.ofNat 32 (bitsToNat key)), value)])
  | none => (false, limits)

/-- The order of pairs. -/
def limitLe (a b : Int32 × UInt64) : Bool := a.1 < b.1 || (a.1 == b.1 && a.2 ≤ b.2)

/-- `get_config`. -/
def getConfig (data : Cell) : Result Config := tryVm do
  let cs ← loadSlice data
  match configHead cs with
  | none => fail "Can't parse config"
  | some (startAt, dictRoot) =>
    let (ok, limits) ← checkForEach addLimit [] ⟨32, dictRoot, keyBits_le⟩
    if ok then return ⟨startAt, limits.mergeSort limitLe⟩ else fail "Can't parse config"

/-- The contract takes the message over: its data is a counter, an id and a key, and what the signed message has behind its
three words. -/
def Installs (body data : Cell) : Prop := ∃ head : List Bool, head.length = 32 + 32 + 256 ∧
  data = .mk false (head ++ body.data.drop (512 + 3 * 32)) body.refs

end TonWallet.SmcEnvelope.RestrictedWallet

namespace TonWallet.Tonlib

open Lib TonWallet.Td TonWallet.Ton TonWallet.Vm TonWallet.SmcEnvelope RestrictedWallet SendGrams

/-! ## The request -/

/-- `rwallet_limit`. -/
structure RwalletLimit where
  seconds : Int32
  value : Int64
  deriving DecidableEq

/-- `rwallet_config`. -/
structure RwalletConfig where
  startAt : Int64
  limits : List (Option RwalletLimit)
  deriving DecidableEq

/-- `rwallet_actionInit`. -/
structure RwalletActionInit where
  config : Option RwalletConfig

/-- `actionRwallet`. -/
structure ActionRwallet where
  action : Option RwalletActionInit

/-- `narrow_cast_safe` from `int64` to `uint32`. -/
def narrowCastUInt32 (a : Int64) : Result UInt32 :=
  let r := a.toUInt64.toUInt32
  if r.toUInt64.toInt64 ≠ a then fail "Narrow cast failed"
  -- an unsigned number is not negative
  else if false ≠ decide (a < 0) then fail "Narrow cast failed"
  else .ok r

/-- `narrow_cast_safe` from `int64` to `uint64`. -/
def narrowCastUInt64 (a : Int64) : Result UInt64 :=
  let r := a.toUInt64
  if r.toInt64 ≠ a then fail "Narrow cast failed"
  else if false ≠ decide (a < 0) then fail "Narrow cast failed"
  else .ok r

/-- One round of the loop over the limits. -/
def toLimit : Option RwalletLimit → Result (Int32 × UInt64)
  | none => .error (.status (emptyField "limits"))
  | some limit => do
    let value ← tryPrefix (invalidField "value" "not a uint64") (narrowCastUInt64 limit.value)
    return (limit.seconds, value)

/-- The configuration that `do_rwallet_action` makes of a request. -/
def toConfig (action : ActionRwallet) : Result RestrictedWallet.Config :=
  match action.action with
  | none => .error (.status (emptyField "action"))
  | some init => match init.config with
    | none => .error (.status (emptyField "config"))
    | some config => do
      let startAt ← tryPrefix (invalidField "start_at" "not a uint32") (narrowCastUInt32 config.startAt)
      let limits ← config.limits.mapM toLimit
      return ⟨startAt, limits⟩

/-- `do_rwallet_action`, as far as the body of its message. -/
def doRwalletAction [Digest] (sign : Bits256 → List UInt8) (getSeqno getWalletId : Result UInt32) (validUntil : UInt32)
    (action : ActionRwallet) : Result Cell := do
  let config ← toConfig action
  tryPrefix ⟨500, "INTERNAL: Invalid rwalet init query"⟩ (getInitMessage sign getSeqno getWalletId validUntil config)

end TonWallet.Tonlib

namespace TonWallet.SmcEnvelope.RestrictedWallet

open Lib TonWallet.Td TonWallet.Ton TonWallet.Vm TonWallet.Vm.CellBuilder TonWallet.Vm.Dict TonWallet.Vm.DictionaryBase
  TonWallet.Vm.Dictionary TonWallet.Block PaymentChannel

/-! ## What the message carries -/

/-- A limit as the dictionary keeps it. -/
def limitItem (limit : Int32 × UInt64) : List Bool × Slice := (natToBits 32 limit.1.toBitVec.toNat, packGrams limit.2)

theorem mapM_limitEntry (limits : List (Int32 × UInt64)) {es : List (List Bool × CellBuilder)}
    (h : limits.mapM limitEntry = .ok es) : es.map asEntry = limits.map limitItem := by
  induction limits generalizing es with
  | nil =>
    cases h
    rfl
  | cons limit limits ih =>
    rw [List.mapM_cons] at h
    obtain ⟨e, he, h⟩ := bind_ok h
    obtain ⟨es', hes, h⟩ := bind_ok h
    cases h
    cases he
    rw [List.map_cons, List.map_cons, ih hes]
    rfl

theorem second_key (seconds : Int32) :
    Int32.ofBitVec (.ofNat 32 (bitsToNat (natToBits 32 seconds.toBitVec.toNat))) = seconds := by
  rw [bitsToNat_natToBits, Nat.mod_eq_of_lt seconds.toBitVec.isLt, BitVec.ofNat_toNat, BitVec.setWidth_eq,
    Int32.ofBitVec_toBitVec]

/-- What is read of an entry. -/
def readLimit (e : List Bool × Slice) : Int32 × UInt64 := (.ofBitVec (.ofNat 32 (bitsToNat e.1)), (unpackGrams e.2).getD 0)

theorem unpackGrams_packGrams {amount : UInt64} (h : amount.toNat < 2 ^ 63) : unpackGrams (packGrams amount) = some amount := by
  rw [packGrams_eq h]
  exact unpackGrams_eq_some.2 ⟨h, rfl⟩

theorem readLimit_limitItem {limit : Int32 × UInt64} (h : limit.2.toNat < 2 ^ 63) : readLimit (limitItem limit) = limit := by
  rw [readLimit, limitItem, second_key, unpackGrams_packGrams h]
  rfl

/-- The walk reads all entries when it can read each. -/
theorem checkEntries_addLimit {es : List (List Bool × Slice)} (h : ∀ e ∈ es, (unpackGrams e.2).isSome = true)
    (limits : List (Int32 × UInt64)) : checkEntries addLimit es limits = (true, limits ++ es.map readLimit) := by
  induction es generalizing limits with
  | nil => rw [List.map_nil, List.append_nil, checkEntries]
  | cons e es ih =>
    obtain ⟨value, hvalue⟩ := Option.isSome_iff_exists.1 (h e List.mem_cons_self)
    obtain ⟨key, cs⟩ := e
    have hadd : addLimit key cs limits = (true, limits ++ [readLimit (key, cs)]) := by
      rw [addLimit, readLimit, hvalue]
      rfl
    rw [checkEntries, hadd]
    exact (ih (fun e' he' => h e' (List.mem_cons_of_mem _ he')) _).trans (by simp)

section

variable [Digest] {sign : Bits256 → List UInt8} {limits : List (Int32 × UInt64)} {d : DictionaryBase}

/-- The dictionary stands for the limits, of those with the same seconds for the last. -/
theorem limitsDict_ok (h : limitsDict limits = .ok d) :
    d.keyBits = 32 ∧ d.Stands .plain (KeyMap.empty.putAll (limits.map limitItem)) := by
  unfold limitsDict at h
  split at h
  · next dict hrun =>
    cases h
    obtain ⟨hbits, es, hes, hstands⟩ := fillWith_ok (stands_empty keyBits_le)
      (fun x _ e he => by cases he; exact length_natToBits _ _) hrun
    rw [mapM_limitEntry limits hes] at hstands
    exact ⟨hbits, hstands⟩
  · cases h

omit [Digest] in
theorem length_packGrams {amount : UInt64} (h : amount.toNat < 2 ^ 63) : (packGrams amount).bits.length ≤ 68 := by
  have hbits : bitLength amount.toNat ≤ 63 := bitLength_le_iff.2 h
  rw [packGrams_eq h, length_gramsSlice]
  omega

/-- A limit that can be read fits a leaf. -/
theorem node_limitItem {limit : Int32 × UInt64} (h : limit.2.toNat < 2 ^ 63) :
    ∃ c, node (limitItem limit).1 32 (limitItem limit).2 = some c ∧ c.Within 0 := by
  have hlabel : (labelBits (limitItem limit).1 32).length ≤ 66 := by
    have hlen : (limitItem limit).1.length = 32 := length_natToBits _ _
    rw [length_labelBits (by omega)]
    omega
  have hgrams := length_packGrams h
  have hrefs : (limitItem limit).2.refs = [] := by
    show (packGrams limit.2).refs = []
    rw [packGrams_eq h]
    rfl
  have hwithin : (Cell.mk false (labelBits (limitItem limit).1 32 ++ (limitItem limit).2.bits) []).Within 0 := by
    refine ⟨rfl, (by decide : 0 < 8), ?_⟩
    have hdepths : (Cell.mk false (labelBits (limitItem limit).1 32 ++ (limitItem limit).2.bits) []).info.depths = [0] := rfl
    rw [hdepths]
    intro d hd
    rw [List.mem_singleton.1 hd]
  refine ⟨_, ?_, hwithin⟩
  rw [node, hrefs]
  refine cellOf_eq ?_ (Nat.zero_le _) (hwithin.mono (Nat.zero_le _))
  rw [List.length_append]
  show _ + (packGrams limit.2).bits.length ≤ 1023
  omega

/-- Limits that can be read make a dictionary, and a low one. -/
theorem limitsDict_total (h : ∀ limit ∈ limits, limit.2.toNat < 2 ^ 63) :
    ∃ d, limitsDict limits = .ok d ∧ ∀ root ∈ d.rootCell, root.Within 32 := by
  have hrun : ∃ d, run (fillWith limitEntry limits) ⟨32, none, keyBits_le⟩ = (.ok (), d) := by
    apply fillWith_total (stands_empty keyBits_le)
    · intro k v hk
      cases hk
    · intro limit hlimit
      obtain ⟨c, hc, hwithin⟩ := node_limitItem (h limit hlimit)
      exact ⟨_, rfl, length_natToBits _ _, c, hc, hwithin.mono (Nat.zero_le _)⟩
  obtain ⟨d, hrun⟩ := hrun
  have hdict : limitsDict limits = .ok d := by rw [limitsDict, hrun]
  obtain ⟨hbits, hstands⟩ := limitsDict_ok hdict
  refine ⟨d, hdict, ?_⟩
  have hlow := hstands.within_rootCell (b := 0) (by rw [hbits]; decide) fun k v hk => by
    obtain ⟨limit, hlimit, heq⟩ := List.mem_map.1 (KeyMap.mem_of_putAll_empty hk)
    cases heq
    rw [hbits]
    exact node_limitItem (h limit hlimit)
  rwa [hbits] at hlow

/-- What stands behind the signature. -/
def initSlice (walletId validUntil startAt : UInt32) (root : Option Cell) : Slice :=
  ⟨natToBits 32 walletId.toNat ++ natToBits 32 validUntil.toNat ++ natToBits 32 0 ++ natToBits 32 startAt.toNat ++
    (Slice.maybeRef root).bits, (Slice.maybeRef root).refs⟩

/-- The builder of the message in front of the dictionary. -/
theorem getInitMessage_eq {getSeqno getWalletId : Result UInt32} {walletId : UInt32} (hseqno : getSeqno = .ok 0)
    (hwallet : getWalletId = .ok walletId) (validUntil : UInt32) (config : Config) :
    getInitMessage sign getSeqno getWalletId validUntil config = (limitsDict config.limits).bind fun dict =>
      signedBody sign ⟨(initSlice walletId validUntil config.startAt dict.rootCell).bits,
        (initSlice walletId validUntil config.startAt dict.rootCell).refs⟩ := by
  have hlen (x : Nat) : (natToBits 32 x).length = 32 := length_natToBits 32 x
  have h1 := @storeBits_ok [] (natToBits 32 walletId.toNat) (by simp [maxBits])
  have h2 := @storeBits_ok ([] ++ natToBits 32 walletId.toNat) (natToBits 32 validUntil.toNat) (by simp [maxBits])
  have h3 := @storeBits_ok ([] ++ natToBits 32 walletId.toNat ++ natToBits 32 validUntil.toNat) (natToBits 32 0)
    (by simp [maxBits])
  have h4 := @storeBits_ok ([] ++ natToBits 32 walletId.toNat ++ natToBits 32 validUntil.toNat ++ natToBits 32 0)
    (natToBits 32 config.startAt.toNat) (by simp [maxBits])
  rw [getInitMessage, hseqno, hwallet]
  simp only [bind, Except.bind, ne_eq, not_true_eq_false, if_false]
  rw [show ({} : CellBuilder) = ⟨[], []⟩ from rfl, h1]
  dsimp only
  rw [h2]
  dsimp only
  rw [show (0 : UInt32).toNat = 0 from rfl, h3]
  dsimp only
  rw [h4]
  dsimp only
  cases limitsDict config.limits with
  | error e => rfl
  | ok dict =>
    dsimp only
    rw [storeMaybeRef_ok dict.rootCell (by simp [maxBits])]
    rfl

theorem getInitMessage_ok {getSeqno getWalletId : Result UInt32} {validUntil : UInt32} {config : Config} {body : Cell}
    (h : getInitMessage sign getSeqno getWalletId validUntil config = .ok body) : ∃ walletId d,
      limitsDict config.limits = .ok d ∧ SignedOver sign body (initSlice walletId validUntil config.startAt d.rootCell) := by
  have h' := h
  obtain ⟨seqno, hseqno, h⟩ := bind_ok h
  obtain ⟨walletId, hwallet, h⟩ := bind_ok h
  split at h
  · cases h
  · next hzero =>
    rw [not_not] at hzero
    subst hzero
    rw [getInitMessage_eq hseqno hwallet] at h'
    obtain ⟨d, hd, h'⟩ := bind_ok h'
    exact ⟨walletId, d, hd, signedOver_of_signedBody h'⟩

/-- A contract that is not initialized yet gets its message. -/
theorem getInitMessage_total (hsign : ∀ hash, (sign hash).length = 64) {getSeqno getWalletId : Result UInt32}
    {walletId : UInt32} (hseqno : getSeqno = .ok 0) (hwallet : getWalletId = .ok walletId) (validUntil : UInt32)
    {config : Config} (h : ∀ limit ∈ config.limits, limit.2.toNat < 2 ^ 63) :
    ∃ body, getInitMessage sign getSeqno getWalletId validUntil config = .ok body := by
  obtain ⟨d, hd, hlow⟩ := limitsDict_total h
  have hbits : (initSlice walletId validUntil config.startAt d.rootCell).bits.length = 129 := by
    cases d.rootCell <;> simp [initSlice, Slice.maybeRef]
  rw [getInitMessage_eq hseqno hwallet, hd]
  apply signedBody_total hsign
  · show (initSlice walletId validUntil config.startAt d.rootCell).bits.length + 512 ≤ 1023
    omega
  · cases d.rootCell <;> simp [initSlice, Slice.maybeRef, maxRefs]
  · intro c hc
    cases hroot : d.rootCell with
    | none =>
      rw [hroot] at hc
      cases hc
    | some root =>
      rw [hroot] at hc
      have hc : c = root := by simpa [initSlice, Slice.maybeRef] using hc
      rw [hc]
      exact (hlow root hroot).mono (by decide)

/-! ## What is read -/

/-- The contract's data starts the configuration where the message has it. -/
theorem configHead_of_installs (hsign : ∀ hash, (sign hash).length = 64) {walletId validUntil startAt : UInt32}
    {root : Option Cell} {body data : Cell} (hbody : SignedOver sign body (initSlice walletId validUntil startAt root))
    (hdata : Installs body data) : ∃ cs, loadSlice (some data) = .ok cs ∧ configHead cs = some (startAt, root) := by
  obtain ⟨outer, -, rfl⟩ := hbody
  obtain ⟨head, hhead, rfl⟩ := hdata
  refine ⟨_, loadSlice_ordinary rfl, ?_⟩
  have hdrop : (Cell.mk false (bytesToBits (sign (outer.getHash maxLevel)) ++ (initSlice walletId validUntil startAt root).bits)
      (initSlice walletId validUntil startAt root).refs).data.drop (512 + 3 * 32) =
      natToBits 32 startAt.toNat ++ (Slice.maybeRef root).bits := by
    show List.drop _ (bytesToBits _ ++ _) = _
    rw [initSlice, ← List.append_assoc, ← List.append_assoc, ← List.append_assoc, ← List.append_assoc, List.append_assoc,
      List.drop_left']
    simp [length_bytesToBits, hsign]
  have hslice : (⟨head ++ (natToBits 32 startAt.toNat ++ (Slice.maybeRef root).bits), (Slice.maybeRef root).refs⟩ : Slice) =
      Slice.append ⟨head, []⟩ (Slice.append ⟨natToBits 32 startAt.toNat, []⟩ (Slice.maybeRef root)) := rfl
  rw [hdrop]
  show configHead ⟨head ++ (natToBits 32 startAt.toNat ++ (Slice.maybeRef root).bits), (Slice.maybeRef root).refs⟩ = _
  rw [hslice, configHead, Slice.advance_append hhead]
  have hword : Slice.fetchUintTo 32 (Slice.append ⟨natToBits 32 startAt.toNat, []⟩ (Slice.maybeRef root)) =
      some (startAt.toNat, Slice.maybeRef root) := by
    rw [Slice.fetchUintTo, Slice.advance_append (length_natToBits 32 _)]
    show some (bitsToNat ((natToBits 32 startAt.toNat ++ (Slice.maybeRef root).bits).take 32), _) = _
    rw [List.take_left' (length_natToBits 32 _), bitsToNat_natToBits, Nat.mod_eq_of_lt startAt.toNat_lt]
  simp only [bind, Option.bind, hword, Slice.prefetchMaybeRef_maybeRef]
  rw [UInt32.ofNat_toNat]
  rfl

/-- The configuration that is read: the last of the limits with the same seconds, each. -/
theorem getConfig_of_installs (hsign : ∀ hash, (sign hash).length = 64) {getSeqno getWalletId : Result UInt32}
    {validUntil : UInt32} {config : Config} {body data : Cell} (hlimits : ∀ limit ∈ config.limits, limit.2.toNat < 2 ^ 63)
    (h : getInitMessage sign getSeqno getWalletId validUntil config = .ok body) (hdata : Installs body data) :
    ∃ es, EntriesOf (KeyMap.empty.putAll (config.limits.map limitItem)) es ∧
      getConfig data = .ok ⟨config.startAt, (es.map readLimit).mergeSort limitLe⟩ := by
  obtain ⟨walletId, d, hdict, hbody⟩ := getInitMessage_ok h
  obtain ⟨hbits, hstands⟩ := limitsDict_ok hdict
  obtain ⟨es, hes⟩ := hstands.exists_entries
  obtain ⟨cs, hload, hhead⟩ := configHead_of_installs hsign hbody hdata
  refine ⟨es, hes, ?_⟩
  have hread : ∀ e ∈ es, (unpackGrams e.2).isSome = true := by
    rintro ⟨k, v⟩ he
    obtain ⟨limit, hlimit, heq⟩ := List.mem_map.1 (KeyMap.mem_of_putAll_empty ((hes.mem_iff k v).1 he))
    cases heq
    exact Option.isSome_iff_exists.2 ⟨_, unpackGrams_packGrams (hlimits limit hlimit)⟩
  have hd : (⟨32, d.rootCell, keyBits_le⟩ : DictionaryBase) = d := by
    obtain ⟨keyBits, rootCell, hle⟩ := d
    cases hbits
    rfl
  rw [getConfig, tryVm, catchVm_ok_iff, hload]
  simp only [bind, Except.bind, hhead, hd, hstands.checkForEach hes, checkEntries_addLimit hread, List.nil_append, if_true]
  rfl

end

end TonWallet.SmcEnvelope.RestrictedWallet

namespace TonWallet.Tonlib

open Lib TonWallet.Td TonWallet.Ton TonWallet.Vm TonWallet.SmcEnvelope RestrictedWallet SendGrams

/-! ## Requests that are accepted -/

theorem narrowCastUInt32_ok {a : Int64} {r : UInt32} (h : narrowCastUInt32 a = .ok r) : (r.toNat : Int) = a.toInt := by
  simp only [narrowCastUInt32] at h
  split at h
  · exact absurd h fail_ne_ok
  · next hcast =>
    split at h
    · exact absurd h fail_ne_ok
    · cases h
      rw [not_not] at hcast
      have hlt : a.toUInt64.toUInt32.toUInt64.toNat < 2 ^ 32 := a.toUInt64.toUInt32.toNat_lt
      have htoInt := congrArg Int64.toInt hcast
      rw [← Int64.toInt_toBitVec, UInt64.toBitVec_toInt64, BitVec.toInt_eq_toNat_of_lt] at htoInt
      · exact htoInt
      · show 2 * a.toUInt64.toUInt32.toUInt64.toNat < 2 ^ 64
        omega

theorem narrowCastUInt64_ok {a : Int64} {r : UInt64} (h : narrowCastUInt64 a = .ok r) :
    (r.toNat : Int) = a.toInt ∧ r.toNat < 2 ^ 63 := by
  simp only [narrowCastUInt64] at h
  split at h
  · exact absurd h fail_ne_ok
  · split at h
    · exact absurd h fail_ne_ok
    · next hneg =>
      cases h
      have hnonneg : 0 ≤ a.toInt := by
        have hle : ¬ a < 0 := by simpa using hneg
        rw [Int64.lt_iff_toInt_lt] at hle
        simpa using hle
      have hlt : a.toInt < 2 ^ 63 := a.toInt_lt
      have hcast : (a.toUInt64.toNat : Int) = a.toInt := by
        rw [← Int64.toInt_toBitVec, BitVec.toInt_eq_toNat_cond] at hnonneg ⊢
        split at hnonneg
        · next hsmall =>
          rw [if_pos hsmall]
          rfl
        · have := a.toBitVec.isLt
          omega
      exact ⟨hcast, by omega⟩

/-- A pair of seconds and a value, as integers. -/
def pairOf (limit : RwalletLimit) : Int × Int := (limit.seconds.toInt, limit.value.toInt)

/-- The pair that a limit of the wallet stands for. -/
def readPair (limit : Int32 × UInt64) : Int × Int := (limit.1.toInt, limit.2.toNat)

theorem toLimit_ok {limit : Option RwalletLimit} {l : Int32 × UInt64} (h : toLimit limit = .ok l) :
    limit.map pairOf = some (readPair l) ∧ l.2.toNat < 2 ^ 63 := by
  cases limit with
  | none => cases h
  | some limit =>
    obtain ⟨value, hvalue, h⟩ := bind_ok h
    cases h
    obtain ⟨hcast, hlt⟩ := narrowCastUInt64_ok (tryPrefix_ok_iff.1 hvalue)
    refine ⟨?_, hlt⟩
    rw [Option.map_some, pairOf, readPair, hcast]

theorem mapM_toLimit_ok {limits : List (Option RwalletLimit)} {ls : List (Int32 × UInt64)} (h : limits.mapM toLimit = .ok ls) :
    limits.map (·.map pairOf) = ls.map (fun l => some (readPair l)) ∧ ∀ l ∈ ls, l.2.toNat < 2 ^ 63 := by
  induction limits generalizing ls with
  | nil =>
    cases h
    exact ⟨rfl, nofun⟩
  | cons limit limits ih =>
    rw [List.mapM_cons] at h
    obtain ⟨l, hl, h⟩ := bind_ok h
    obtain ⟨ls', hls, h⟩ := bind_ok h
    cases h
    obtain ⟨hpair, hlt⟩ := toLimit_ok hl
    obtain ⟨hpairs, hlts⟩ := ih hls
    refine ⟨?_, ?_⟩
    · rw [List.map_cons, List.map_cons, hpair, hpairs]
    · intro l' hl'
      rcases List.mem_cons.1 hl' with rfl | hl'
      · exact hlt
      · exact hlts l' hl'

/-- What an accepted request asks for: when the limits start, and the pairs of seconds and values. -/
def ActionRwallet.Asks (action : ActionRwallet) (startAt : Int) (pairs : List (Int × Int)) : Prop :=
  ∃ config, action = ⟨some ⟨some config⟩⟩ ∧ config.startAt.toInt = startAt ∧
    config.limits.map (·.map pairOf) = pairs.map some

theorem toConfig_ok {action : ActionRwallet} {config : RestrictedWallet.Config} (h : toConfig action = .ok config) :
    action.Asks config.startAt.toNat (config.limits.map readPair) ∧ ∀ l ∈ config.limits, l.2.toNat < 2 ^ 63 := by
  obtain ⟨_ | ⟨_ | c⟩⟩ := action
  · cases h
  · cases h
  · obtain ⟨startAt, hstart, h⟩ := bind_ok h
    obtain ⟨limits, hlimits, h⟩ := bind_ok h
    cases h
    obtain ⟨hpairs, hlt⟩ := mapM_toLimit_ok hlimits
    refine ⟨⟨c, rfl, (narrowCastUInt32_ok (tryPrefix_ok_iff.1 hstart)).symm, ?_⟩, hlt⟩
    rw [hpairs, List.map_map]
    rfl

/-- An action asks for one thing only. -/
theorem ActionRwallet.Asks.unique {action : ActionRwallet} {s s' : Int} {ps ps' : List (Int × Int)} (h : action.Asks s ps)
    (h' : action.Asks s' ps') : s = s' ∧ ps = ps' := by
  obtain ⟨c, rfl, rfl, hps⟩ := h
  obtain ⟨c', heq, rfl, hps'⟩ := h'
  cases heq
  refine ⟨rfl, ?_⟩
  have hmap : ps.map some = ps'.map some := hps.symm.trans hps'
  exact (List.map_injective_iff.2 (Option.some_injective _)) hmap

/-! ## The configuration that is read back -/

/-- The configuration that is read of the contract's data is what the request asks for. -/
def Keeps (action : ActionRwallet) (data : Cell) : Prop :=
  ∃ config, getConfig data = .ok config ∧ ∃ pairs, action.Asks config.startAt.toNat pairs ∧
    (config.limits.map readPair).Perm pairs ∧ config.limits.Pairwise fun a b => a.1 ≤ b.1

/-- No two limits of the request have the same seconds. -/
def DistinctSeconds (action : ActionRwallet) : Prop :=
  ∀ s pairs, action.Asks s pairs → (pairs.map (·.1)).Nodup

theorem limitLe_total (a b : Int32 × UInt64) : (limitLe a b || limitLe b a) = true := by
  obtain ⟨s, v⟩ := a
  obtain ⟨s', v'⟩ := b
  simp only [limitLe, Bool.or_eq_true, Bool.and_eq_true, decide_eq_true_eq, beq_iff_eq]
  rcases lt_trichotomy s.toInt s'.toInt with h | h | h
  · exact .inl (.inl (Int32.lt_iff_toInt_lt.2 h))
  · rw [Int32.toInt_inj] at h
    rcases UInt64.le_total v v' with h' | h'
    · exact .inl (.inr ⟨h, h'⟩)
    · exact .inr (.inr ⟨h.symm, h'⟩)
  · exact .inr (.inl (Int32.lt_iff_toInt_lt.2 h))

theorem limitLe_trans (a b c : Int32 × UInt64) (hab : limitLe a b = true) (hbc : limitLe b c = true) : limitLe a c = true := by
  simp only [limitLe, Bool.or_eq_true, Bool.and_eq_true, decide_eq_true_eq, beq_iff_eq] at *
  rcases hab with hab | ⟨hab, hab'⟩
  · rcases hbc with hbc | ⟨hbc, -⟩
    · exact .inl (Int32.lt_trans hab hbc)
    · exact .inl (hbc ▸ hab)
  · rcases hbc with hbc | ⟨hbc, hbc'⟩
    · exact .inl (hab ▸ hbc)
    · exact .inr ⟨hab.trans hbc, UInt64.le_trans hab' hbc'⟩

theorem le_of_limitLe {a b : Int32 × UInt64} (h : limitLe a b = true) : a.1 ≤ b.1 := by
  simp only [limitLe, Bool.or_eq_true, Bool.and_eq_true, decide_eq_true_eq, beq_iff_eq] at h
  rcases h with h | ⟨h, -⟩
  · exact Int32.le_of_lt h
  · exact h ▸ Int32.le_refl _

/-- The limits that are read are in the order of their seconds. -/
theorem sorted_limits (limits : List (Int32 × UInt64)) :
    (limits.mergeSort limitLe).Pairwise fun a b => a.1 ≤ b.1 :=
  (List.pairwise_mergeSort limitLe_trans limitLe_total limits).imp le_of_limitLe

/-- Limits with the same key have the same seconds. -/
theorem limitItem_key_inj {a b : Int32 × UInt64} (h : (limitItem a).1 = (limitItem b).1) : a.1 = b.1 := by
  rw [← second_key a.1, ← second_key b.1]
  exact congrArg (fun k => Int32.ofBitVec (.ofNat 32 (bitsToNat k))) h

section

variable {limits : List (Int32 × UInt64)} {es : List (List Bool × Slice)}
  (h : EntriesOf (KeyMap.empty.putAll (limits.map limitItem)) es) (hlimits : ∀ limit ∈ limits, limit.2.toNat < 2 ^ 63)

include h in
/-- What the dictionary holds is some of the limits. -/
theorem entry_is_limit {e : List Bool × Slice} (he : e ∈ es) : ∃ limit ∈ limits, limitItem limit = e := by
  exact List.mem_map.1 (KeyMap.mem_of_putAll_empty ((h.mem_iff e.1 e.2).1 he))

include h hlimits in
/-- No seconds are read twice. -/
theorem nodup_readLimit : ((es.map readLimit).map (·.1)).Nodup := by
  rw [List.map_map, List.Nodup, List.pairwise_map]
  refine h.sorted.imp_of_mem ?_
  intro a b ha hb hbefore heq
  obtain ⟨la, hla, rfl⟩ := entry_is_limit h ha
  obtain ⟨lb, hlb, rfl⟩ := entry_is_limit h hb
  rw [Function.comp_apply, Function.comp_apply, readLimit_limitItem (hlimits la hla), readLimit_limitItem (hlimits lb hlb)] at heq
  have hkeys : (limitItem la).1 = (limitItem lb).1 := by rw [limitItem, limitItem, heq]
  rw [hkeys] at hbefore
  exact hbefore.asymm hbefore

include h hlimits in
/-- Limits of different seconds are all read. -/
theorem perm_readLimit (hnodup : (limits.map (·.1)).Nodup) : (es.map readLimit).Perm limits := by
  have hkeys : ((limits.map limitItem).map (·.1)).Nodup := by
    rw [List.map_map, List.Nodup, List.pairwise_map]
    rw [List.Nodup, List.pairwise_map] at hnodup
    exact hnodup.imp fun hne heq => hne (limitItem_key_inj heq)
  have hread : (limits.map limitItem).map readLimit = limits := by
    rw [List.map_map]
    conv_rhs => rw [← List.map_id limits]
    exact List.map_congr_left fun limit hlimit => readLimit_limitItem (hlimits limit hlimit)
  have hperm := (KeyMap.perm_of_entriesOf_putAll hkeys h).map readLimit
  rwa [hread] at hperm

end

theorem map_fst_readPair (limits : List (Int32 × UInt64)) :
    (limits.map readPair).map (·.1) = (limits.map (·.1)).map Int32.toInt := by
  rw [List.map_map, List.map_map]
  rfl

theorem nodup_readPair {limits : List (Int32 × UInt64)} :
    ((limits.map readPair).map (·.1)).Nodup ↔ (limits.map (·.1)).Nodup := by
  rw [map_fst_readPair]
  exact List.nodup_map_iff fun _ _ => Int32.toInt_inj.1

section

variable [Digest] {sign : Bits256 → List UInt8} {getSeqno getWalletId : Result UInt32} {validUntil : UInt32}
  {action : ActionRwallet} {body data : Cell}

/-- What is kept has each of its seconds once. -/
theorem distinct_of_keeps (hsign : ∀ hash, (sign hash).length = 64)
    (h : doRwalletAction sign getSeqno getWalletId validUntil action = .ok body) (hdata : Installs body data)
    (hkeeps : Keeps action data) : DistinctSeconds action := by
  obtain ⟨config, hconfig, hbody⟩ := bind_ok h
  obtain ⟨hasks, hlimits⟩ := toConfig_ok hconfig
  obtain ⟨es, hes, hget⟩ := getConfig_of_installs hsign hlimits (tryPrefix_ok_iff.1 hbody) hdata
  obtain ⟨read, hread, pairs, hasks', hperm, -⟩ := hkeeps
  intro s pairs' hpairs'
  obtain rfl := (hasks'.unique hpairs').2
  rw [hget] at hread
  cases hread
  -- the same pairs in another order
  rw [← (hperm.map (·.1)).nodup_iff, nodup_readPair]
  exact (((List.mergeSort_perm _ limitLe).map (·.1)).nodup_iff).2 (nodup_readLimit hes hlimits)

/-- Limits with different seconds are all kept. -/
theorem keeps_of_distinct (hsign : ∀ hash, (sign hash).length = 64)
    (h : doRwalletAction sign getSeqno getWalletId validUntil action = .ok body) (hdata : Installs body data)
    (hdistinct : DistinctSeconds action) : Keeps action data := by
  obtain ⟨config, hconfig, hbody⟩ := bind_ok h
  obtain ⟨hasks, hlimits⟩ := toConfig_ok hconfig
  obtain ⟨es, hes, hget⟩ := getConfig_of_installs hsign hlimits (tryPrefix_ok_iff.1 hbody) hdata
  have hnodup : (config.limits.map (·.1)).Nodup := nodup_readPair.1 (hdistinct _ _ hasks)
  refine ⟨_, hget, _, hasks, ?_, sorted_limits _⟩
  exact ((List.mergeSort_perm _ limitLe).trans (perm_readLimit hes hlimits hnodup)).map readPair

/-- A request with limits that are accepted gets a message for a contract that is not initialized yet. -/
theorem doRwalletAction_total (hsign : ∀ hash, (sign hash).length = 64) {walletId : UInt32} (hseqno : getSeqno = .ok 0)
    (hwallet : getWalletId = .ok walletId) {config : RestrictedWallet.Config} (hconfig : toConfig action = .ok config) :
    ∃ body, doRwalletAction sign getSeqno getWalletId validUntil action = .ok body := by
  obtain ⟨body, hbody⟩ := getInitMessage_total hsign hseqno hwallet validUntil (toConfig_ok hconfig).2
  refine ⟨body, ?_⟩
  rw [doRwalletAction, hconfig]
  exact tryPrefix_ok_iff.2 hbody

/-- An accepted request whose limits have different seconds is read back as it is, and no other is. -/
theorem limits_kept_iff (hsign : ∀ hash, (sign hash).length = 64)
    (h : doRwalletAction sign getSeqno getWalletId validUntil action = .ok body) (hdata : Installs body data) :
    Keeps action data ↔ DistinctSeconds action := by
  constructor
  · exact distinct_of_keeps hsign h hdata
  · exact keeps_of_distinct hsign h hdata

end

namespace RwalletSample

/-- A signature of zeros. -/
def sign (_ : Bits256) : List UInt8 := List.replicate 64 0

/-- A request with two limits. -/
def action (seconds seconds' : Int32) : ActionRwallet :=
  ⟨some ⟨some ⟨1000, [some ⟨seconds, 5⟩, some ⟨seconds', 7⟩]⟩⟩⟩

theorem toConfig_action (seconds seconds' : Int32) :
    toConfig (action seconds seconds') = .ok ⟨1000, [(seconds, 5), (seconds', 7)]⟩ := by
  have hstart : narrowCastUInt32 1000 = .ok 1000 := by decide
  have hvalue : narrowCastUInt64 5 = .ok 5 := by decide
  have hvalue' : narrowCastUInt64 7 = .ok 7 := by decide
  simp only [toConfig, action, hstart, List.mapM_cons, toLimit, hvalue, hvalue']
  rfl

/-- The message of such a request, and what it installs. -/
theorem exists_installs (seconds seconds' : Int32) : ∃ body data,
    @doRwalletAction SmcEnvelope.Sample.digest sign (.ok 0) (.ok 1) 0 (action seconds seconds') = .ok body ∧
      Installs body data := by
  obtain ⟨body, hbody⟩ := @doRwalletAction_total SmcEnvelope.Sample.digest sign (.ok 0) (.ok 1) 0 (action seconds seconds')
    (fun _ => rfl) 1 rfl rfl _ (toConfig_action seconds seconds')
  exact ⟨body, _, hbody, List.replicate (32 + 32 + 256) false, List.length_replicate, rfl⟩

/-- Limits at one hour and at two are kept. -/
theorem limits_kept_hours : ∃ data, Keeps (action 3600 7200) data := by
  obtain ⟨body, data, hbody, hdata⟩ := exists_installs 3600 7200
  refine ⟨data, (@limits_kept_iff SmcEnvelope.Sample.digest sign _ _ _ _ body data (fun _ => rfl) hbody hdata).2 ?_⟩
  intro s pairs hasks
  have hasked : (action 3600 7200).Asks 1000 [(3600, 5), (7200, 7)] := ⟨_, rfl, rfl, rfl⟩
  rw [(hasks.unique hasked).2]
  decide

/-- Of two limits at one hour the first is lost. -/
theorem same_seconds_not_kept : ¬ ∀ (_ : Digest) (sign : Bits256 → List UInt8) (getSeqno getWalletId : Result UInt32)
    (validUntil : UInt32) (action : ActionRwallet) (body data : Cell), (∀ hash, (sign hash).length = 64) →
      doRwalletAction sign getSeqno getWalletId validUntil action = .ok body → Installs body data → Keeps action data := by
  intro hkeeps
  obtain ⟨body, data, hbody, hdata⟩ := exists_installs 3600 3600
  have hkept := hkeeps SmcEnvelope.Sample.digest _ _ _ _ _ _ _ (fun _ => rfl) hbody hdata
  have hdistinct := @distinct_of_keeps SmcEnvelope.Sample.digest sign _ _ _ _ _ _ (fun _ => rfl) hbody hdata hkept
  have hasked : (action 3600 3600).Asks 1000 [(3600, 5), (3600, 7)] := ⟨_, rfl, rfl, rfl⟩
  have hnodup : [(3600 : Int), 3600].Nodup := hdistinct _ _ hasked
  exact absurd hnodup (by decide)

end RwalletSample

end TonWallet.Tonlib
