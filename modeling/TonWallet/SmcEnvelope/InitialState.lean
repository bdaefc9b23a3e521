/-
What the contracts of the wallet start from (`smc-envelope`): the code of each kind of contract by revision, the data it
is deployed with, and the address that both give. An address is the hash of the initial state in a workchain.
-/
import TonWallet.SmcEnvelope.PackGrams
import TonWallet.Vm.StoreText

namespace TonWallet.SmcEnvelope

open Lib TonWallet.Td TonWallet.Ton TonWallet.Vm TonWallet.Vm.CellBuilder TonWallet.Block

/-- `ton::basechainId`. -/
def basechainId : Int32 := 0

/-! ## Code -/

/-- `SmartContractCode::Type`. -/
inductive CodeType
  | walletV1
  | walletV1Ext
  | walletV2
  | walletV3
  | highloadWalletV1
  | highloadWalletV2
  | manualDns
  | multisig
  | paymentChannel
  | restrictedWallet
  deriving DecidableEq, Repr

namespace CodeType

/-- `get_revisions`. -/
def getRevisions : CodeType → List Int
  | walletV1 | walletV2 | walletV3 => [1, 2]
  | walletV1Ext | multisig | paymentChannel => [-1]
  | highloadWalletV1 | highloadWalletV2 => [-1, 1, 2]
  | manualDns => [-1, 1]
  | restrictedWallet => [1]

/-- `validate_revision`: none means the last one. -/
def validateRevision (type : CodeType) (revision : Int) : Except Status Int :=
  let last := type.getRevisions.getLastD 0
  if revision = -1 then .ok (if type.getRevisions.head? = some (-1) then -1 else last)
  else if revision = 0 then .ok last
  else if revision ∈ type.getRevisions then .ok revision
  else .error (.error "No such revision")

def basename : CodeType → String
  | walletV1 => "simple-wallet"
  | walletV2 => "wallet"
  | walletV3 => "wallet3"
  | walletV1Ext => "simple-wallet-ext"
  | highloadWalletV1 => "highload-wallet"
  | highloadWalletV2 => "highload-wallet-v2"
  | multisig => "multisig"
  | manualDns => "dns-manual"
  | paymentChannel => "payment-channel"
  | restrictedWallet => "restricted-wallet3"

/-- The name of a code in the map. -/
def codeName (type : CodeType) (revision : Int) : String :=
  if revision = -1 then type.basename else type.basename ++ "-r" ++ toString revision

theorem validateRevision_ok {type : CodeType} {revision r : Int} (h : type.validateRevision revision = .ok r) :
    r ∈ type.getRevisions := by
  unfold validateRevision at h
  dsimp only at h
  split at h
  · cases h
    cases type <;> decide
  · split at h
    · cases h
      cases type <;> decide
    · split at h
      · cases h
        assumption
      · cases h

end CodeType

/-- The map of codes: bags of cells in the source. Every revision has its code there, and a code can be referenced. -/
class SmartContractCodes extends Digest where
  load : String → Option Cell
  complete : ∀ (type : CodeType), ∀ revision ∈ type.getRevisions,
    ∃ code, load (type.codeName revision) = some code ∧ code.Within (maxDepth - 1)

section

variable [SmartContractCodes]

/-- `SmartContractCode::get_code`. -/
def getCode (type : CodeType) (extRevision : Int) : Result Cell :=
  match type.validateRevision extRevision with
  | .error s => .error (.check s.toStr)
  | .ok revision => match SmartContractCodes.load (type.codeName revision) with
    | some code => .ok code
    | none => .error (.check ("Can't load td::Ref<vm::Cell> " ++ type.codeName revision))

/-- The code of every revision that there is. -/
theorem getCode_ok {type : CodeType} {revision r : Int} (h : type.validateRevision revision = .ok r) :
    ∃ code, getCode type revision = .ok code ∧ code.Within (maxDepth - 1) := by
  obtain ⟨code, hload, hwithin⟩ := SmartContractCodes.complete type r (CodeType.validateRevision_ok h)
  refine ⟨code, ?_, hwithin⟩
  rw [getCode, h]
  dsimp only
  rw [hload]

end

/-- `SmartContract::State`. -/
structure ContractState where
  code : Cell
  data : Cell

/-! ## Addresses -/

namespace GenericAccount

variable [Digest]

/-- `get_init_state`. -/
def getInitState (s : ContractState) : Result Cell := do
  let cb ← storeZeroes 2 {}
  let cb ← cb.storeOnes 2
  let cb ← cb.storeZeroes 1
  let cb ← cb.storeRef (some s.code)
  let cb ← cb.storeRef (some s.data)
  cb.finalize

/-- `get_address`. -/
def getAddress (workchainId : Int32) (initState : Cell) : StdAddress :=
  { workchain := workchainId, addr := initState.getHash maxLevel, bounceable := true, testnet := false }

/-- The cell of an initial state. -/
def initStateCell (s : ContractState) : Cell := .mk false [false, false, true, true, false] [s.code, s.data]

theorem getInitState_ok {s : ContractState} (hcode : s.code.Within (maxDepth - 1)) (hdata : s.data.Within (maxDepth - 1)) :
    getInitState s = .ok (initStateCell s) := by
  have hwithin : (initStateCell s).Within maxDepth := Cell.Within.fork hcode hdata _
  have hrefs : (⟨[false, false, true, true, false], [s.code, s.data]⟩ : CellBuilder).refs.length ≤ maxRefs := by
    simp [maxRefs]
  exact @Vm.finalize_ok _ ⟨[false, false, true, true, false], [s.code, s.data]⟩ (by simp [maxBits]) hrefs hwithin

theorem getAddress_eq_iff {workchainId : Int32} {initState : Cell} {address : StdAddress} :
    getAddress workchainId initState = address ↔ workchainId = address.workchain ∧
      initState.getHash maxLevel = address.addr ∧ address.bounceable = true ∧ address.testnet = false := by
  obtain ⟨workchain, bounceable, testnet, addr⟩ := address
  simp only [getAddress, StdAddress.mk.injEq]
  constructor
  · rintro ⟨rfl, rfl, rfl, rfl⟩
    exact ⟨rfl, rfl, rfl, rfl⟩
  · rintro ⟨rfl, rfl, rfl, rfl⟩
    exact ⟨rfl, rfl, rfl, rfl⟩

end GenericAccount

/-! ## Data -/

section

variable [SmartContractCodes]

/-- A state that can be deployed: its initial state is a cell. -/
structure ContractState.Deployable (s : ContractState) : Prop where
  code : s.code.Within (maxDepth - 1)
  data : s.data.Within (maxDepth - 1)

/-- The state of a contract with the code of a revision and some data. -/
def contractState (type : CodeType) (revision : Int) (data : Result Cell) : Result ContractState := do
  let code ← getCode type revision
  let data ← data
  return ⟨code, data⟩

theorem contractState_ok {type : CodeType} {revision r : Int} {data : Cell}
    (hrevision : type.validateRevision revision = .ok r) (hdata : data.Within (maxDepth - 1)) :
    ∃ s, contractState type revision (.ok data) = .ok s ∧ s.Deployable := by
  obtain ⟨code, hcode, hwithin⟩ := getCode_ok hrevision
  refine ⟨⟨code, data⟩, ?_, hwithin, hdata⟩
  rw [contractState, hcode]
  rfl

/-- The data of a wallet: fields of bits one after the other. -/
def dataCell (fields : List (List Bool)) : Result Cell := do
  let cb ← fields.foldlM (fun (cb : CellBuilder) bits => cb.storeBits bits) {}
  cb.finalize

theorem dataCell_ok {fields : List (List Bool)} (h : fields.flatten.length ≤ maxBits) :
    dataCell fields = .ok (.mk false fields.flatten []) ∧ (Cell.mk false fields.flatten []).Within (maxDepth - 1) := by
  have hstores : ∀ (fields : List (List Bool)) (cb : CellBuilder), cb.bits.length + fields.flatten.length ≤ maxBits →
      fields.foldlM (fun (cb : CellBuilder) bits => cb.storeBits bits) cb = (.ok ⟨cb.bits ++ fields.flatten, cb.refs⟩ : Result CellBuilder) := by
    intro fields
    induction fields with
    | nil =>
      intro cb _
      simp [pure, Except.pure]
    | cons bits fields ih =>
      intro cb hroom
      rw [List.flatten_cons, List.length_append] at hroom
      have hstore := storeBits_ok bits cb (by unfold CellBuilder.remainingBits; omega)
      rw [List.foldlM_cons, hstore]
      change fields.foldlM _ (⟨cb.bits ++ bits, cb.refs⟩ : CellBuilder) = _
      rw [ih _ (by rw [List.length_append]; omega), List.flatten_cons, List.append_assoc]
  have hwithin : (Cell.mk false fields.flatten []).Within (maxDepth - 1) :=
    (@Cell.Within.node _ 0 [] (List.forall_mem_nil _) _).mono (by simp [maxDepth])
  refine ⟨?_, hwithin⟩
  rw [dataCell, hstores fields {} (by simpa using h)]
  exact @Vm.finalize_ok _ ⟨fields.flatten, []⟩ h (Nat.zero_le _) (hwithin.mono (Nat.sub_le _ _))

/-- A state of code and fields. -/
theorem deployable_of_fields {type : CodeType} {revision r : Int} {fields : List (List Bool)}
    (hrevision : type.validateRevision revision = .ok r) (h : fields.flatten.length ≤ maxBits) :
    ∃ s, contractState type revision (dataCell fields) = .ok s ∧ s.Deployable := by
  obtain ⟨hdata, hwithin⟩ := dataCell_ok h
  rw [hdata]
  exact contractState_ok hrevision hwithin

/-- The 32 octets of a public key. -/
def keyBits (key : Bits256) : List Bool := natToBits 256 key.toNat

omit [SmartContractCodes] in
@[simp] theorem length_keyBits (key : Bits256) : (keyBits key).length = 256 := length_natToBits 256 _

/-! ## Searching for a revision -/

/-- The loop of `guess_revision`: the first revision whose initial state is accepted. -/
def firstRevision (state : Int → Result ContractState) (accepts : Cell → Bool) : List Int → Result (Option Int)
  | [] => .ok none
  | revision :: revisions => do
    let initState ← GenericAccount.getInitState (← state revision)
    if accepts initState then return some revision else firstRevision state accepts revisions

/-- States that are there for each of some revisions. -/
def Deploys (state : Int → Result ContractState) (revisions : List Int) : Prop :=
  ∀ revision ∈ revisions, ∃ s, state revision = .ok s ∧ s.Deployable

/-- A state that is accepted, for one of some revisions. -/
def Accepted (state : Int → Result ContractState) (accepts : Cell → Bool) (revisions : List Int) : Prop :=
  ∃ revision ∈ revisions, ∃ s, state revision = .ok s ∧ accepts (GenericAccount.initStateCell s) = true

/-- The search ends with an accepted revision, or there is none. -/
theorem firstRevision_cases {state : Int → Result ContractState} {revisions : List Int} (h : Deploys state revisions)
    (accepts : Cell → Bool) :
    (firstRevision state accepts revisions = .ok none ∧ ¬ Accepted state accepts revisions) ∨
      ∃ revision s, firstRevision state accepts revisions = .ok (some revision) ∧ revision ∈ revisions ∧
        state revision = .ok s ∧ s.Deployable ∧ accepts (GenericAccount.initStateCell s) = true := by
  induction revisions with
  | nil =>
    left
    refine ⟨rfl, ?_⟩
    rintro ⟨revision, hmem, -⟩
    cases hmem
  | cons revision revisions ih =>
    obtain ⟨s, hs, hdeploy⟩ := h revision List.mem_cons_self
    have hinit := GenericAccount.getInitState_ok hdeploy.code hdeploy.data
    have hstep : firstRevision state accepts (revision :: revisions) =
        if accepts (GenericAccount.initStateCell s) then .ok (some revision) else firstRevision state accepts revisions := by
      rw [firstRevision, hs]
      change (GenericAccount.getInitState s >>= fun initState => _) = _
      rw [hinit]
      rfl
    rw [hstep]
    by_cases haccepts : accepts (GenericAccount.initStateCell s) = true
    · rw [if_pos haccepts]
      exact .inr ⟨revision, s, rfl, List.mem_cons_self, hs, hdeploy, haccepts⟩
    · rw [if_neg haccepts]
      rcases ih fun r hr => h r (List.mem_cons_of_mem _ hr) with ⟨hnone, hnot⟩ | ⟨r, s', hr, hmem, hrest⟩
      · refine .inl ⟨hnone, ?_⟩
        rintro ⟨r, hr, s', hs', haccepts'⟩
        rcases List.mem_cons.1 hr with rfl | hr
        · rw [hs] at hs'
          cases hs'
          exact haccepts haccepts'
        · exact hnot ⟨r, hr, s', hs', haccepts'⟩
      · exact .inr ⟨r, s', hr, List.mem_cons_of_mem _ hmem, hrest⟩

/-! ## Wallets -/

namespace WalletV3

/-- `get_init_data`, of sequence number 0. -/
def getInitData (key : Bits256) (walletId : UInt32) : Result Cell :=
  dataCell [natToBits 32 0, natToBits 32 walletId.toNat, keyBits key]

def state (key : Bits256) (walletId : UInt32) (revision : Int) : Result ContractState :=
  contractState .walletV3 revision (getInitData key walletId)

/-- `guess_revision`. -/
def guessRevision (address : StdAddress) (key : Bits256) (walletId : UInt32) : Result (Option Int) :=
  firstRevision (state key walletId) (fun initState => GenericAccount.getAddress address.workchain initState = address) [1, 2]

theorem deploys (key : Bits256) (walletId : UInt32) : Deploys (state key walletId) [1, 2] := by
  rintro revision hrevision
  have hvalid : CodeType.walletV3.validateRevision revision = .ok revision := by
    revert revision
    decide
  exact deployable_of_fields hvalid (by simp [maxBits])

end WalletV3

namespace HighloadWallet

def getInitData (key : Bits256) (walletId : UInt32) : Result Cell :=
  dataCell [natToBits 32 0, natToBits 32 walletId.toNat, keyBits key]

def state (key : Bits256) (walletId : UInt32) (revision : Int) : Result ContractState :=
  contractState .highloadWalletV1 revision (getInitData key walletId)

/-- `guess_revision`. -/
def guessRevision (address : StdAddress) (key : Bits256) (walletId : UInt32) : Result (Option Int) :=
  firstRevision (state key walletId) (fun initState => GenericAccount.getAddress address.workchain initState = address) [1, 2]

theorem deploys (key : Bits256) (walletId : UInt32) : Deploys (state key walletId) [1, 2] := by
  rintro revision hrevision
  have hvalid : CodeType.highloadWalletV1.validateRevision revision = .ok revision := by
    revert revision
    decide
  exact deployable_of_fields hvalid (by simp [maxBits])

end HighloadWallet

namespace HighloadWalletV2

/-- `get_init_data`, with the bit of a dictionary that is empty. -/
def getInitData (key : Bits256) (walletId : UInt32) : Result Cell :=
  dataCell [natToBits 32 walletId.toNat, natToBits 64 0, keyBits key, [false]]

def state (key : Bits256) (walletId : UInt32) (revision : Int) : Result ContractState :=
  contractState .highloadWalletV2 revision (getInitData key walletId)

/-- `guess_revision`. -/
def guessRevision (address : StdAddress) (key : Bits256) (walletId : UInt32) : Result (Option Int) :=
  firstRevision (state key walletId) (fun initState => GenericAccount.getAddress address.workchain initState = address) [1, 2]

theorem deploys (key : Bits256) (walletId : UInt32) : Deploys (state key walletId) [1, 2] := by
  rintro revision hrevision
  have hvalid : CodeType.highloadWalletV2.validateRevision revision = .ok revision := by
    revert revision
    decide
  exact deployable_of_fields hvalid (by simp [maxBits])

end HighloadWalletV2

namespace ManualDns

/-- `create_init_data_fast`, with the bits of two dictionaries that are empty. -/
def createInitDataFast (key : Bits256) (walletId : UInt32) : Result Cell :=
  dataCell [natToBits 32 walletId.toNat, natToBits 64 0, keyBits key, [false], [false]]

/-- `create`. -/
def create (key : Bits256) (walletId : UInt32) (revision : Int) : Result ContractState :=
  contractState .manualDns revision (createInitDataFast key walletId)

/-- `guess_revision`: the address is that of the basechain. -/
def guessRevision (address : StdAddress) (key : Bits256) (walletId : UInt32) : Result (Option Int) :=
  firstRevision (create key walletId) (fun initState => GenericAccount.getAddress basechainId initState = address) [-1, 1]

theorem deploys (key : Bits256) (walletId : UInt32) : Deploys (create key walletId) [-1, 1] := by
  rintro revision hrevision
  have hvalid : CodeType.manualDns.validateRevision revision = .ok revision := by
    revert revision
    decide
  exact deployable_of_fields hvalid (by simp [maxBits])

end ManualDns

namespace TestWallet

def getInitData (key : Bits256) : Result Cell := dataCell [natToBits 32 0, keyBits key]

def state (key : Bits256) : Result ContractState := contractState .walletV1 0 (getInitData key)

theorem state_ok (key : Bits256) : ∃ s, state key = .ok s ∧ s.Deployable := by
  have hvalid : CodeType.walletV1.validateRevision 0 = .ok 2 := by decide
  exact deployable_of_fields hvalid (by simp [maxBits])

end TestWallet

namespace Wallet

def getInitData (key : Bits256) : Result Cell := dataCell [natToBits 32 0, keyBits key]

def state (key : Bits256) : Result ContractState := contractState .walletV2 0 (getInitData key)

theorem state_ok (key : Bits256) : ∃ s, state key = .ok s ∧ s.Deployable := by
  have hvalid : CodeType.walletV2.validateRevision 0 = .ok 2 := by decide
  exact deployable_of_fields hvalid (by simp [maxBits])

end Wallet

namespace RestrictedWallet

/-- `InitData`. -/
structure InitData where
  initKey : List UInt8
  mainKey : List UInt8
  walletId : UInt32

def getInitData (d : InitData) : Result Cell := do
  check (d.initKey.length = 32) "init_data.init_key.size() == 32"
  check (d.mainKey.length = 32) "init_data.main_key.size() == 32"
  dataCell [natToBits 32 0, natToBits 32 d.walletId.toNat, bytesToBits d.initKey, bytesToBits d.mainKey]

/-- `create`. -/
def create (d : InitData) (revision : Int) : Result ContractState :=
  contractState .restrictedWallet revision (getInitData d)

theorem deploys {d : InitData} (hinit : d.initKey.length = 32) (hmain : d.mainKey.length = 32) :
    Deploys (create d) CodeType.restrictedWallet.getRevisions := by
  rintro revision hrevision
  have hvalid : CodeType.restrictedWallet.validateRevision revision = .ok revision := by
    revert revision
    decide
  have hdata : getInitData d =
      dataCell [natToBits 32 0, natToBits 32 d.walletId.toNat, bytesToBits d.initKey, bytesToBits d.mainKey] := by
    rw [getInitData, hinit, hmain]
    rfl
  rw [create, hdata]
  exact deployable_of_fields hvalid (by simp [hinit, hmain, maxBits])

end RestrictedWallet

/-! ## Payment channels -/

namespace PaymentChannel

/-- `pchan::Config`. -/
structure Config where
  initTimeout : UInt32 := 0
  closeTimeout : UInt32 := 0
  aKey : List UInt8
  bKey : List UInt8
  aAddr : StdAddress
  bAddr : StdAddress
  channelId : UInt64 := 0
  minAExtra : UInt64 := 0

/-- `pchan::StateInit`. -/
structure StateInit where
  signedA : Bool := false
  signedB : Bool := false
  minA : UInt64 := 0
  minB : UInt64 := 0
  a : UInt64 := 0
  b : UInt64 := 0
  expireAt : UInt32 := 0

/-- `MsgAddressInt::store_std_address`. -/
def storeStdAddress (a : StdAddress) (cb : CellBuilder) : Option CellBuilder :=
  if -128 ≤ a.workchain.toInt ∧ a.workchain.toInt < 128 then
    ((cb.storeLongBool 4 3).bind (storeLongBool (a.workchain.toBitVec.toNat % 2 ^ 8) 8)).bind
      (appendSliceBool ⟨keyBits a.addr, []⟩)
  else
    ((cb.storeLongBool 0xd00 12).bind (storeLongBool a.workchain.toBitVec.toNat 32)).bind
      (appendSliceBool ⟨keyBits a.addr, []⟩)

/-- The cell of an address; that it is stored is not looked at, and a new builder has room for it. -/
def addressCell (a : StdAddress) : Result Cell := ((storeStdAddress a {}).getD {}).finalize

/-- `CHECK(pack_cell(..))`. -/
def packed (cb : Option CellBuilder) : Result Cell := match cb with
  | some cb => cb.finalize
  | none => .error (.check "tlb::pack_cell(res, rec)")

/-- `ChanConfig::pack`. -/
def Config.pack (c : Config) (aAddr bAddr : Cell) : Option CellBuilder := do
  let cb ← storeLongBool c.initTimeout.toNat 32 {}
  let cb ← cb.storeLongBool c.closeTimeout.toNat 32
  let cb ← cb.appendSliceBool ⟨bytesToBits c.aKey, []⟩
  let cb ← cb.appendSliceBool ⟨bytesToBits c.bKey, []⟩
  let cb ← cb.storeRefBool (some aAddr)
  let cb ← cb.storeRefBool (some bAddr)
  let cb ← cb.storeLongBool c.channelId.toNat 64
  storeGramsFrom c.minAExtra cb

/-- `Config::serialize`. -/
def Config.serialize (c : Config) : Result Cell := do
  let aAddr ← addressCell c.aAddr
  let bAddr ← addressCell c.bAddr
  -- the keys are copied into 32 bytes each
  check (c.aKey.length = 32) "size() == from.size()"
  check (c.bKey.length = 32) "size() == from.size()"
  packed (c.pack aAddr bAddr)

/-- `ChanState::pack` of an initial state. -/
def StateInit.pack (s : StateInit) : Option CellBuilder := do
  let cb ← storeLongBool 0 3 {}
  let cb ← cb.storeLongBool s.signedA.toNat 1
  let cb ← cb.storeLongBool s.signedB.toNat 1
  let cb ← storeGramsFrom s.minA cb
  let cb ← storeGramsFrom s.minB cb
  let cb ← cb.storeLongBool s.expireAt.toNat 32
  let cb ← storeGramsFrom s.a cb
  storeGramsFrom s.b cb

/-- `StateInit::serialize`. -/
def StateInit.serialize (s : StateInit) : Result Cell := packed s.pack

/-- `Data::serialize` of a configuration and a state. -/
def dataSerialize (config state : Cell) : Result Cell :=
  packed ((storeRefBool (some config) {}).bind (storeRefBool (some state)))

def getInitData (c : Config) : Result Cell := do
  let config ← c.serialize
  let state ← ({} : StateInit).serialize
  dataSerialize config state

/-- `create`. -/
def create (c : Config) (revision : Int) : Result ContractState := contractState .paymentChannel revision (getInitData c)

/-- The cell of an address has the bits of either form. -/
theorem addressCell_ok (a : StdAddress) : ∃ bits, addressCell a = .ok (.mk false bits []) := by
  have hfields : ∃ bits, storeStdAddress a {} = some ⟨bits, []⟩ ∧ bits.length ≤ maxBits := by
    unfold storeStdAddress storeLongBool
    split
    · refine ⟨natToBits 3 4 ++ natToBits 8 (a.workchain.toBitVec.toNat % 2 ^ 8) ++ keyBits a.addr, ?_, by simp [maxBits]⟩
      rw [appendSliceBool_ok _ _ (by simp [maxBits]), Option.bind_some, appendSliceBool_ok _ _ (by simp [maxBits]),
        Option.bind_some, appendSliceBool_ok _ _ (by simp [maxBits])]
      rfl
    · refine ⟨natToBits 12 0xd00 ++ natToBits 32 a.workchain.toBitVec.toNat ++ keyBits a.addr, ?_, by simp [maxBits]⟩
      rw [appendSliceBool_ok _ _ (by simp [maxBits]), Option.bind_some, appendSliceBool_ok _ _ (by simp [maxBits]),
        Option.bind_some, appendSliceBool_ok _ _ (by simp [maxBits])]
      rfl
  obtain ⟨bits, hstore, hlen⟩ := hfields
  refine ⟨bits, ?_⟩
  rw [addressCell, hstore]
  have hwithin : (Cell.mk false bits []).Within maxDepth :=
    (@Cell.Within.node _ 0 [] (List.forall_mem_nil _) _).mono (by simp [maxDepth])
  exact @Vm.finalize_ok _ ⟨bits, []⟩ hlen (Nat.zero_le _) hwithin

omit [SmartContractCodes] in
/-- No grams are four bits. -/
theorem storeGramsFrom_zero (cb : CellBuilder) (h : cb.bits.length + 4 ≤ maxBits) :
    storeGramsFrom 0 cb = some ⟨cb.bits ++ natToBits 4 0, cb.refs⟩ := storeGramsFrom_ok (by decide) cb h

theorem packed_ok {cb : CellBuilder} {b : Nat} (hbits : cb.bits.length ≤ maxBits) (hrefs : cb.refs.length ≤ maxRefs)
    (hwithin : ∀ c ∈ cb.refs, c.Within b) (hb : b < maxDepth) :
    packed (some cb) = .ok (.mk false cb.bits cb.refs) ∧ (Cell.mk false cb.bits cb.refs).Within (b + 1) :=
  ⟨Vm.finalize_ok hbits hrefs ((Cell.Within.node hwithin cb.bits).mono hb), Cell.Within.node hwithin cb.bits⟩

omit [SmartContractCodes] in
theorem bind_of_some {α β : Type} {o : Option α} {a : α} {f : α → Option β} {r : Option β} (h : o = some a) (hf : f a = r) :
    (o >>= f) = r := by
  rw [h]
  exact hf

omit [SmartContractCodes] in
theorem Config.pack_ok {c : Config} (ha : c.aKey.length = 32) (hb : c.bKey.length = 32) (hextra : c.minAExtra = 0)
    (aAddr bAddr : Cell) :
    c.pack aAddr bAddr = some ⟨natToBits 32 c.initTimeout.toNat ++ natToBits 32 c.closeTimeout.toNat ++
      bytesToBits c.aKey ++ bytesToBits c.bKey ++ natToBits 64 c.channelId.toNat ++ natToBits 4 0, [aAddr, bAddr]⟩ := by
  have hta := storeLongBool_ok c.initTimeout.toNat 32 {} (by simp [maxBits])
  have htb := storeLongBool_ok c.closeTimeout.toNat 32 ⟨natToBits 32 c.initTimeout.toNat, []⟩ (by simp [maxBits])
  have hka := appendSliceBool_ok (bytesToBits c.aKey)
    ⟨natToBits 32 c.initTimeout.toNat ++ natToBits 32 c.closeTimeout.toNat, []⟩ (by simp [ha, maxBits])
  have hkb := appendSliceBool_ok (bytesToBits c.bKey)
    ⟨natToBits 32 c.initTimeout.toNat ++ natToBits 32 c.closeTimeout.toNat ++ bytesToBits c.aKey, []⟩
    (by simp [ha, hb, maxBits])
  have hchannel := storeLongBool_ok c.channelId.toNat 64
    ⟨natToBits 32 c.initTimeout.toNat ++ natToBits 32 c.closeTimeout.toNat ++ bytesToBits c.aKey ++ bytesToBits c.bKey,
      [aAddr, bAddr]⟩ (by simp [ha, hb, maxBits])
  have hgrams := storeGramsFrom_zero
    ⟨natToBits 32 c.initTimeout.toNat ++ natToBits 32 c.closeTimeout.toNat ++ bytesToBits c.aKey ++ bytesToBits c.bKey ++
      natToBits 64 c.channelId.toNat, [aAddr, bAddr]⟩ (by simp [ha, hb, maxBits])
  rw [pack, hextra]
  exact bind_of_some hta (bind_of_some htb (bind_of_some hka (bind_of_some hkb
    (bind_of_some rfl (bind_of_some rfl (bind_of_some hchannel hgrams))))))

theorem Config.serialize_ok {c : Config} (ha : c.aKey.length = 32) (hb : c.bKey.length = 32) (hextra : c.minAExtra = 0) :
    ∃ cell, c.serialize = .ok cell ∧ cell.Within 2 := by
  obtain ⟨aBits, haddr⟩ := addressCell_ok c.aAddr
  obtain ⟨bBits, hbddr⟩ := addressCell_ok c.bAddr
  have hleaf : ∀ bits : List Bool, (Cell.mk false bits []).Within 1 := fun bits =>
    @Cell.Within.node _ 0 [] (List.forall_mem_nil _) bits
  have hpack := Config.pack_ok ha hb hextra (.mk false aBits []) (.mk false bBits [])
  obtain ⟨hpacked, hwithin⟩ := @packed_ok _ ⟨natToBits 32 c.initTimeout.toNat ++ natToBits 32 c.closeTimeout.toNat ++
      bytesToBits c.aKey ++ bytesToBits c.bKey ++ natToBits 64 c.channelId.toNat ++ natToBits 4 0,
    [.mk false aBits [], .mk false bBits []]⟩ 1 (by simp [ha, hb, maxBits]) (by simp [maxRefs])
    (List.forall_mem_cons.2 ⟨hleaf _, List.forall_mem_singleton.2 (hleaf _)⟩) (by simp [maxDepth])
  refine ⟨_, ?_, hwithin⟩
  rw [← hpacked, ← hpack, serialize, haddr, hbddr, ha, hb]
  rfl

/-- The state of a channel that has just been made. -/
theorem StateInit.serialize_ok : ∃ cell, ({} : StateInit).serialize = .ok cell ∧ cell.Within 1 := by
  have hpack : ({} : StateInit).pack =
      some ⟨natToBits 3 0 ++ natToBits 1 0 ++ natToBits 1 0 ++ natToBits 4 0 ++ natToBits 4 0 ++ natToBits 32 0 ++
        natToBits 4 0 ++ natToBits 4 0, []⟩ := rfl
  rw [serialize, hpack]
  obtain ⟨hpacked, hwithin⟩ := @packed_ok _ ⟨natToBits 3 0 ++ natToBits 1 0 ++ natToBits 1 0 ++ natToBits 4 0 ++
    natToBits 4 0 ++ natToBits 32 0 ++ natToBits 4 0 ++ natToBits 4 0, []⟩ 0 (by simp [maxBits]) (Nat.zero_le _)
    (List.forall_mem_nil _) (by simp [maxDepth])
  exact ⟨_, hpacked, hwithin⟩

theorem deploys {c : Config} (ha : c.aKey.length = 32) (hb : c.bKey.length = 32) (hextra : c.minAExtra = 0) :
    Deploys (create c) CodeType.paymentChannel.getRevisions := by
  rintro revision hrevision
  have hvalid : CodeType.paymentChannel.validateRevision revision = .ok revision := by
    revert revision
    decide
  obtain ⟨config, hconfig, hconfigWithin⟩ := Config.serialize_ok ha hb hextra
  obtain ⟨state, hstate, hstateWithin⟩ := StateInit.serialize_ok
  obtain ⟨hpacked, hwithin⟩ := @packed_ok _ ⟨[], [config, state]⟩ 2 (Nat.zero_le _) (by simp [maxRefs])
    (List.forall_mem_cons.2 ⟨hconfigWithin, List.forall_mem_singleton.2 (hstateWithin.mono (by decide))⟩) (by simp [maxDepth])
  have hdata : getInitData c = .ok (.mk false [] [config, state]) := by
    rw [getInitData, hconfig, hstate]
    exact hpacked
  rw [create, hdata]
  exact contractState_ok hvalid (hwithin.mono (by decide))

end PaymentChannel

end

end TonWallet.SmcEnvelope
