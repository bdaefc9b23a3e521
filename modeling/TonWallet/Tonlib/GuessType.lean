/-
What kind of wallet an account that is not deployed yet will be (`AccountState::guess_type_by_public_key`,
`guess_type_by_init_state`): the first of the kinds whose initial state has the address for its hash. Most kinds are
recognized by the whole record of the address, so that its flags decide too.
-/
import TonWallet.SmcEnvelope.InitialState
import TonWallet.Tonlib.CreateSendGrams

namespace TonWallet.Tonlib.SendGrams

open Lib TonWallet.Td TonWallet.Ton TonWallet.Vm TonWallet.Block TonWallet.SmcEnvelope

/-! ## Accounts -/

/-- `AccountState`, with what its type is guessed by. -/
structure WalletAccount extends AccountState where
  walletRevision : Int := 0
  walletId : UInt32 := 0

/-- `pchan_config`. -/
structure PchanConfig where
  alicePublicKey : List Char
  aliceAddress : Option (List Char)
  bobPublicKey : List Char
  bobAddress : Option (List Char)
  initTimeout : Int32
  closeTimeout : Int32
  channelId : Int64

/-- `InitialAccountState` of a request; no other kind is looked at. -/
inductive InitialState
  | rwallet (initPublicKey publicKey : List Char) (walletId : Int64)
  | pchan (config : Option PchanConfig)
  | other

section

variable (memory : Fin 36 → UInt8)

/-- `to_init_data`. -/
def toInitData (initPublicKey publicKey : List Char) (walletId : Int64) : Result RestrictedWallet.InitData := do
  let initKey ← getPublicKeyOf memory initPublicKey
  let mainKey ← getPublicKeyOf memory publicKey
  return { initKey := initKey.key, mainKey := mainKey.key, walletId := walletId.toUInt64.toUInt32 }

/-- `to_pchan_config`. -/
def toPchanConfig (config : Option PchanConfig) : Result PaymentChannel.Config := do
  let config ← orStatus (emptyField "config") config
  let aKey ← tryPrefix (invalidField "alice_public_key" "") (getPublicKeyOf memory config.alicePublicKey)
  let bKey ← tryPrefix (invalidField "bob_public_key" "") (getPublicKeyOf memory config.bobPublicKey)
  let aText ← orStatus (emptyField "config.alice_address") config.aliceAddress
  let aAddr ← tryPrefix (invalidField "alice_address" "") (getAccountAddress memory aText)
  let bText ← orStatus (emptyField "config.bob_address") config.bobAddress
  let bAddr ← tryPrefix (invalidField "bob_address" "") (getAccountAddress memory bText)
  return { aKey := aKey.key, bKey := bKey.key, aAddr, bAddr, channelId := config.channelId.toUInt64,
           initTimeout := config.initTimeout.toUInt32, closeTimeout := config.closeTimeout.toUInt32 }

end

section

variable [SmartContractCodes]

namespace WalletAccount

/-- `set_new_state`. -/
def setNewState (a : WalletAccount) (s : ContractState) : Result WalletAccount := do
  let state ← GenericAccount.getInitState s
  return { a with code := some s.code, data := some s.data, state := some state, hasNewState := true }

/-- One kind of wallet: the account becomes one, of the revision that was found, or the next kinds are tried. -/
def tryKind (a : WalletAccount) (type : WalletType) (revision : Result (Option Int))
    (state : Int → Result ContractState) (next : Result WalletAccount) : Result WalletAccount :=
  revision >>= fun
    | some revision => do setNewState { a with walletType := type, walletRevision := revision } (← state revision)
    | none => next

/-- The last two kinds, which are recognized by the hash alone. -/
def guessOldKinds (a : WalletAccount) (key : Bits256) : Result WalletAccount := do
  let testWallet ← TestWallet.state key
  let initState ← GenericAccount.getInitState testWallet
  if (GenericAccount.getAddress a.address.workchain initState).addr = a.address.addr then
    let a ← a.setNewState testWallet
    return { a with walletType := .simpleWallet }
  else
    let wallet ← Wallet.state key
    let initState ← GenericAccount.getInitState wallet
    if (GenericAccount.getAddress a.address.workchain initState).addr = a.address.addr then
      let a ← a.setNewState wallet
      return { a with walletType := .wallet }
    else return a

/-- The wallet id for a key; the highload wallet of the second version adds the workchain once more. -/
def workchainWalletId (a : WalletAccount) : UInt32 := a.address.workchain.toUInt32 + a.walletId

/-- `guess_type_by_public_key`. -/
def guessTypeByPublicKey (a : WalletAccount) (key : Bits256) : Result WalletAccount :=
  if a.walletType ≠ .empty then .ok a
  else
    let walletId := a.workchainWalletId
    let walletId2 := walletId + a.address.workchain.toUInt32
    a.tryKind .walletV3 (WalletV3.guessRevision a.address key walletId) (WalletV3.state key walletId) <|
      a.tryKind .highloadWalletV2 (HighloadWalletV2.guessRevision a.address key walletId2)
          (HighloadWalletV2.state key walletId2) <|
        a.tryKind .highloadWalletV1 (HighloadWallet.guessRevision a.address key walletId)
            (HighloadWallet.state key walletId) <|
          a.tryKind .manualDns (ManualDns.guessRevision a.address key walletId) (ManualDns.create key walletId) <|
            a.guessOldKinds key

/-- An initial state that has the address in one of two workchains. -/
def hasAddress (a : WalletAccount) (initState : Cell) : Bool :=
  GenericAccount.getAddress masterchainId initState = a.address ∨
    GenericAccount.getAddress basechainId initState = a.address

/-- The loop over the revisions for what a request says; the turns of data that cannot be read do nothing. -/
def tryRequested {Data : Type} (a : WalletAccount) (type : WalletType) (revisions : List Int) (data : Result Data)
    (create : Data → Int → Result ContractState) : Result WalletAccount :=
  match data with
  | .error (.status _) => .ok a
  | .error e => .error e
  | .ok data => a.tryKind type (firstRevision (create data) a.hasAddress revisions) (create data) (.ok a)

variable (memory : Fin 36 → UInt8)

/-- What is looked for, by the type of the initial state. -/
def tryInitial (a : WalletAccount) : InitialState → Result WalletAccount
  | .rwallet initPublicKey publicKey walletId =>
    a.tryRequested .restrictedWallet CodeType.restrictedWallet.getRevisions
      (toInitData memory initPublicKey publicKey walletId) RestrictedWallet.create
  | .pchan config =>
    a.tryRequested .paymentChannel CodeType.paymentChannel.getRevisions (toPchanConfig memory config)
      PaymentChannel.create
  | .other => .ok a

/-- `guess_type_by_init_state`. -/
def guessTypeByInitState (a : WalletAccount) (initial : InitialState) : Result WalletAccount :=
  if a.walletType ≠ .empty then .ok a else a.tryInitial memory initial

/-! ## Flags -/

/-- The same account, asked for by an address with other flags. -/
def withFlags (bounceable testnet : Bool) (a : WalletAccount) : WalletAccount :=
  { a with address := { a.address with bounceable, testnet } }

omit [SmartContractCodes] in
/-- What is chosen does not depend on the flags of the address. -/
def FlagBlind (guess : WalletAccount → Result WalletAccount) (a : WalletAccount) : Prop :=
  ∀ bounceable testnet, guess (a.withFlags bounceable testnet) = (guess a).map (withFlags bounceable testnet)

omit [SmartContractCodes] in
@[simp] theorem walletType_withFlags (bounceable testnet : Bool) (a : WalletAccount) :
    (a.withFlags bounceable testnet).walletType = a.walletType := rfl

omit [SmartContractCodes] in
theorem map_eq_ok {α β : Type} {r : Result α} {f : α → β} {b : β} : r.map f = .ok b ↔ ∃ a, r = .ok a ∧ f a = b := by
  cases r <;> simp [Except.map]

omit [SmartContractCodes] in
theorem withFlags_self (a : WalletAccount) : a.withFlags a.address.bounceable a.address.testnet = a := rfl

omit [SmartContractCodes] in
/-- Kinds that are recognized with the usual flags only, tried before what does not look at flags, make the choice
depend on the flags exactly when one of them is there. -/
theorem flagBlind_iff {guess other : WalletAccount → Result WalletAccount} {a : WalletAccount} {recognized : Prop}
    (kinds : List WalletType)
    (hrecord : recognized → ∃ a', guess (a.withFlags true false) = .ok a' ∧ a'.walletType ∈ kinds)
    (hother : ∀ bounceable testnet, ¬ ((bounceable = true ∧ testnet = false) ∧ recognized) →
      guess (a.withFlags bounceable testnet) = other (a.withFlags bounceable testnet))
    (hblind : FlagBlind other a) (hkinds : ∀ a', other a = .ok a' → a'.walletType ∉ kinds) :
    FlagBlind guess a ↔ ¬ recognized := by
  constructor
  · rintro h hrec
    obtain ⟨plain, hplain, hmem⟩ := hrecord hrec
    rw [h] at hplain
    obtain ⟨chosen, hchosen, rfl⟩ := map_eq_ok.1 hplain
    have hflagged := h false false
    rw [hother false false (by simp), hblind, hchosen] at hflagged
    obtain ⟨a', ha', heq⟩ := map_eq_ok.1 hflagged
    have htype : (a'.withFlags false false).walletType = (chosen.withFlags false false).walletType := by rw [heq]
    rw [walletType_withFlags, walletType_withFlags] at htype
    exact hkinds a' ha' (htype ▸ hmem)
  · rintro hnot bounceable testnet
    have hself : guess a = other a := hother a.address.bounceable a.address.testnet fun h => hnot h.2
    rw [hother bounceable testnet fun h => hnot h.2, hblind, hself]

/-! ## Kinds -/

/-- The account with a state that is to be deployed. -/
def become (a : WalletAccount) (type : WalletType) (revision : Int) (s : ContractState) : WalletAccount :=
  { a with walletType := type, walletRevision := revision, code := some s.code, data := some s.data,
           state := some (GenericAccount.initStateCell s), hasNewState := true }

/-- The state of an account is new, and the address is its hash. -/
def StateHashes (a : WalletAccount) : Prop :=
  ∃ s : ContractState, a.code = some s.code ∧ a.data = some s.data ∧ a.hasNewState = true ∧
    a.state = some (GenericAccount.initStateCell s) ∧ (GenericAccount.initStateCell s).getHash maxLevel = a.address.addr

/-- One of the states has the address for its hash. -/
def HashesTo (state : Int → Result ContractState) (revisions : List Int) (addr : Bits256) : Prop :=
  Accepted state (fun initState => initState.getHash maxLevel = addr) revisions

/-- The flags of an address that is made of a hash. -/
def Plain (address : StdAddress) : Prop := address.bounceable = true ∧ address.testnet = false

theorem stateHashes_become {a : WalletAccount} {type : WalletType} {revision : Int} {s : ContractState}
    (h : (GenericAccount.initStateCell s).getHash maxLevel = a.address.addr) : (a.become type revision s).StateHashes :=
  ⟨s, rfl, rfl, rfl, rfl, h⟩

theorem setNewState_ok (a : WalletAccount) {s : ContractState} (h : s.Deployable) :
    a.setNewState s = .ok { a with code := some s.code, data := some s.data,
                                   state := some (GenericAccount.initStateCell s), hasNewState := true } := by
  rw [setNewState, GenericAccount.getInitState_ok h.code h.data]
  rfl

/-- A kind is passed, or the account becomes one. -/
theorem tryKind_cases (a : WalletAccount) (type : WalletType) {state : Int → Result ContractState} {revisions : List Int}
    (h : Deploys state revisions) (accepts : Cell → Bool) (next : Result WalletAccount) :
    (a.tryKind type (firstRevision state accepts revisions) state next = next ∧ ¬ Accepted state accepts revisions) ∨
      ∃ revision s, a.tryKind type (firstRevision state accepts revisions) state next = .ok (a.become type revision s) ∧
        accepts (GenericAccount.initStateCell s) = true ∧ Accepted state accepts revisions := by
  rcases firstRevision_cases h accepts with ⟨hnone, hnot⟩ | ⟨revision, s, hsome, hmem, hs, hdeploy, haccepts⟩
  · left
    refine ⟨?_, hnot⟩
    rw [tryKind, hnone]
    rfl
  · right
    refine ⟨revision, s, ?_, haccepts, revision, hmem, s, hs, haccepts⟩
    rw [tryKind, hsome]
    change (state revision >>= fun s => setNewState _ s) = _
    rw [hs]
    exact setNewState_ok _ hdeploy

theorem accepted_address_iff {state : Int → Result ContractState} {revisions : List Int} {workchainId : Int32}
    {address : StdAddress} :
    Accepted state (fun initState => GenericAccount.getAddress workchainId initState = address) revisions ↔
      Plain address ∧ workchainId = address.workchain ∧ HashesTo state revisions address.addr := by
  simp only [SmcEnvelope.Accepted, HashesTo, Plain, decide_eq_true_eq, GenericAccount.getAddress_eq_iff]
  constructor
  · rintro ⟨revision, hmem, s, hs, hworkchain, hhash, hplain⟩
    exact ⟨hplain, hworkchain, revision, hmem, s, hs, hhash⟩
  · rintro ⟨hplain, hworkchain, revision, hmem, s, hs, hhash⟩
    exact ⟨revision, hmem, s, hs, hworkchain, hhash, hplain⟩

/-! ## By the hash alone -/

/-- What the last two kinds give. -/
theorem guessOldKinds_eq (a : WalletAccount) (key : Bits256) : ∃ s s', ∀ bounceable testnet,
    (a.withFlags bounceable testnet).guessOldKinds key = .ok (withFlags bounceable testnet
      (if (GenericAccount.initStateCell s).getHash maxLevel = a.address.addr then a.become .simpleWallet a.walletRevision s
      else if (GenericAccount.initStateCell s').getHash maxLevel = a.address.addr then a.become .wallet a.walletRevision s'
      else a)) := by
  obtain ⟨s, hs, hdeploy⟩ := TestWallet.state_ok key
  obtain ⟨s', hs', hdeploy'⟩ := Wallet.state_ok key
  refine ⟨s, s', ?_⟩
  intro bounceable testnet
  have hinit := GenericAccount.getInitState_ok hdeploy.code hdeploy.data
  have hinit' := GenericAccount.getInitState_ok hdeploy'.code hdeploy'.data
  have hnew := setNewState_ok (a.withFlags bounceable testnet) hdeploy
  have hnew' := setNewState_ok (a.withFlags bounceable testnet) hdeploy'
  simp only [guessOldKinds, hs, hs', hinit, hinit', hnew, hnew', bind, Except.bind, pure, Except.pure]
  change (if (GenericAccount.initStateCell s).getHash maxLevel = a.address.addr then _ else
    if (GenericAccount.initStateCell s').getHash maxLevel = a.address.addr then _ else _) = _
  by_cases hhash : (GenericAccount.initStateCell s).getHash maxLevel = a.address.addr
  · rw [if_pos hhash, if_pos hhash]
    rfl
  · rw [if_neg hhash, if_neg hhash]
    by_cases hhash' : (GenericAccount.initStateCell s').getHash maxLevel = a.address.addr
    · rw [if_pos hhash', if_pos hhash']
      rfl
    · rw [if_neg hhash', if_neg hhash']

theorem flagBlind_guessOldKinds (a : WalletAccount) (key : Bits256) : FlagBlind (guessOldKinds · key) a := by
  obtain ⟨s, s', h⟩ := guessOldKinds_eq a key
  intro bounceable testnet
  have hself := h a.address.bounceable a.address.testnet
  rw [withFlags_self] at hself
  change (a.withFlags bounceable testnet).guessOldKinds key = (a.guessOldKinds key).map _
  rw [h, hself]
  split_ifs <;> rfl

theorem guessOldKinds_ok {a : WalletAccount} (ha : a.walletType = .empty) (key : Bits256) :
    ∃ a', a.guessOldKinds key = .ok a' ∧ a'.walletType ∈ [WalletType.empty, .simpleWallet, .wallet] ∧
      (a'.walletType ≠ .empty → a'.StateHashes) := by
  obtain ⟨s, s', h⟩ := guessOldKinds_eq a key
  have hself := h a.address.bounceable a.address.testnet
  rw [withFlags_self] at hself
  refine ⟨_, hself, ?_⟩
  split_ifs with hhash hhash'
  · exact ⟨List.mem_cons_of_mem _ List.mem_cons_self, fun _ => stateHashes_become hhash⟩
  · exact ⟨List.mem_cons_of_mem _ (List.mem_cons_of_mem _ List.mem_cons_self), fun _ => stateHashes_become hhash'⟩
  · refine ⟨?_, fun hne => absurd ha hne⟩
    rw [walletType_withFlags, ha]
    exact List.mem_cons_self

/-! ## By the whole address -/

/-- The address is the hash of an initial state of a kind that is recognized by the whole record. -/
def Recognized (a : WalletAccount) (key : Bits256) : Prop :=
  HashesTo (WalletV3.state key a.workchainWalletId) [1, 2] a.address.addr ∨
    HashesTo (HighloadWalletV2.state key (a.workchainWalletId + a.address.workchain.toUInt32)) [1, 2] a.address.addr ∨
    HashesTo (HighloadWallet.state key a.workchainWalletId) [1, 2] a.address.addr ∨
    basechainId = a.address.workchain ∧ HashesTo (ManualDns.create key a.workchainWalletId) [-1, 1] a.address.addr

/-- The kinds that are recognized so. -/
def recordKinds : List WalletType := [.walletV3, .highloadWalletV2, .highloadWalletV1, .manualDns]

/-- A kind that is recognized by the whole record, in a workchain. -/
theorem tryRecord_cases (a : WalletAccount) (type : WalletType) {state : Int → Result ContractState}
    {revisions : List Int} (h : Deploys state revisions) (workchainId : Int32) (next : Result WalletAccount) :
    (a.tryKind type (firstRevision state (fun initState => GenericAccount.getAddress workchainId initState = a.address)
        revisions) state next = next ∧
      ¬ (Plain a.address ∧ workchainId = a.address.workchain ∧ HashesTo state revisions a.address.addr)) ∨
    (Plain a.address ∧ workchainId = a.address.workchain ∧ HashesTo state revisions a.address.addr) ∧
      ∃ revision s, a.tryKind type (firstRevision state
        (fun initState => GenericAccount.getAddress workchainId initState = a.address) revisions) state next =
          .ok (a.become type revision s) ∧
        (GenericAccount.initStateCell s).getHash maxLevel = a.address.addr := by
  rcases tryKind_cases a type h (fun initState => GenericAccount.getAddress workchainId initState = a.address) next with
    ⟨hnext, hnot⟩ | ⟨revision, s, hbecome, haccepts, hrec⟩
  · rw [accepted_address_iff] at hnot
    exact .inl ⟨hnext, hnot⟩
  · rw [accepted_address_iff] at hrec
    exact .inr ⟨hrec, revision, s, hbecome, (GenericAccount.getAddress_eq_iff.1 (of_decide_eq_true haccepts)).2.1⟩

/-- A kind that is recognized by the whole record is there, or only the last two kinds are looked for. -/
theorem guessTypeByPublicKey_cases {a : WalletAccount} (ha : a.walletType = .empty) (key : Bits256) :
    (a.guessTypeByPublicKey key = a.guessOldKinds key ∧ ¬ (Plain a.address ∧ Recognized a key)) ∨
      (Plain a.address ∧ Recognized a key) ∧ ∃ type ∈ recordKinds, ∃ revision s,
        a.guessTypeByPublicKey key = .ok (a.become type revision s) ∧
          (GenericAccount.initStateCell s).getHash maxLevel = a.address.addr := by
  rw [guessTypeByPublicKey, if_neg (not_not.2 ha)]
  dsimp only
  unfold WalletV3.guessRevision HighloadWalletV2.guessRevision HighloadWallet.guessRevision ManualDns.guessRevision
  rcases tryRecord_cases a .walletV3 (WalletV3.deploys key a.workchainWalletId) a.address.workchain _ with
    ⟨hnext, hnot3⟩ | ⟨⟨hplain, -, hrec⟩, revision, s, hbecome, hhash⟩
  · rw [hnext]
    rcases tryRecord_cases a .highloadWalletV2 (HighloadWalletV2.deploys key
        (a.workchainWalletId + a.address.workchain.toUInt32)) a.address.workchain _ with
      ⟨hnext, hnot2⟩ | ⟨⟨hplain, -, hrec⟩, revision, s, hbecome, hhash⟩
    · rw [hnext]
      rcases tryRecord_cases a .highloadWalletV1 (HighloadWallet.deploys key a.workchainWalletId) a.address.workchain _ with
        ⟨hnext, hnot1⟩ | ⟨⟨hplain, -, hrec⟩, revision, s, hbecome, hhash⟩
      · rw [hnext]
        rcases tryRecord_cases a .manualDns (ManualDns.deploys key a.workchainWalletId) basechainId _ with
          ⟨hnext, hnotDns⟩ | ⟨⟨hplain, hrec⟩, revision, s, hbecome, hhash⟩
        · rw [hnext]
          refine .inl ⟨rfl, ?_⟩
          rintro ⟨hplain, hrec | hrec | hrec | hrec⟩
          · exact hnot3 ⟨hplain, rfl, hrec⟩
          · exact hnot2 ⟨hplain, rfl, hrec⟩
          · exact hnot1 ⟨hplain, rfl, hrec⟩
          · exact hnotDns ⟨hplain, hrec⟩
        · rw [hbecome]
          exact .inr ⟨⟨hplain, .inr (.inr (.inr hrec))⟩, .manualDns, by decide, revision, s, rfl, hhash⟩
      · rw [hbecome]
        exact .inr ⟨⟨hplain, .inr (.inr (.inl hrec))⟩, .highloadWalletV1, by decide, revision, s, rfl, hhash⟩
    · rw [hbecome]
      exact .inr ⟨⟨hplain, .inr (.inl hrec)⟩, .highloadWalletV2, by decide, revision, s, rfl, hhash⟩
  · rw [hbecome]
    exact .inr ⟨⟨hplain, .inl hrec⟩, .walletV3, by decide, revision, s, rfl, hhash⟩

/-- The choice for a key depends on the flags exactly when a kind is there that is recognized by the whole record. -/
theorem flagBlind_guessTypeByPublicKey {a : WalletAccount} (ha : a.walletType = .empty) (key : Bits256) :
    FlagBlind (guessTypeByPublicKey · key) a ↔ ¬ Recognized a key := by
  refine @flagBlind_iff _ (guessOldKinds · key) _ _ recordKinds ?_ ?_ (flagBlind_guessOldKinds a key) ?_
  · intro hrec
    have ha' : (a.withFlags true false).walletType = .empty := ha
    rcases guessTypeByPublicKey_cases ha' key with ⟨-, hnot⟩ | ⟨-, type, hmem, revision, s, hbecome, -⟩
    · exact absurd ⟨⟨rfl, rfl⟩, hrec⟩ hnot
    · exact ⟨_, hbecome, hmem⟩
  · intro bounceable testnet hnot
    have ha' : (a.withFlags bounceable testnet).walletType = .empty := ha
    rcases guessTypeByPublicKey_cases ha' key with ⟨hother, -⟩ | ⟨hrec, -⟩
    · exact hother
    · exact absurd hrec hnot
  · intro a' hok hmem
    obtain ⟨a'', hok', hkind, -⟩ := guessOldKinds_ok ha key
    cases hok.symm.trans hok'
    revert hmem hkind
    generalize a'.walletType = type
    revert type
    decide

/-- A type that is chosen for a key comes with a state that has the address for its hash. -/
theorem stateHashes_guessTypeByPublicKey {a : WalletAccount} (ha : a.walletType = .empty) (key : Bits256) :
    ∃ a', a.guessTypeByPublicKey key = .ok a' ∧ (a'.walletType ≠ .empty → a'.StateHashes) := by
  rcases guessTypeByPublicKey_cases ha key with ⟨hother, -⟩ | ⟨-, type, -, revision, s, hbecome, hhash⟩
  · obtain ⟨a', hok, -, hstate⟩ := guessOldKinds_ok ha key
    exact ⟨a', hother.trans hok, hstate⟩
  · exact ⟨_, hbecome, fun _ => stateHashes_become hhash⟩

/-! ## By what a request says -/

/-- The address is the hash of an initial state for what a request says, in one of the two workchains. -/
def Requested {Data : Type} (a : WalletAccount) (revisions : List Int) (data : Result Data)
    (create : Data → Int → Result ContractState) : Prop :=
  (masterchainId = a.address.workchain ∨ basechainId = a.address.workchain) ∧
    ∃ d, data = .ok d ∧ HashesTo (create d) revisions a.address.addr

theorem accepted_hasAddress_iff {a : WalletAccount} {state : Int → Result ContractState} {revisions : List Int} :
    Accepted state a.hasAddress revisions ↔ Plain a.address ∧
      (masterchainId = a.address.workchain ∨ basechainId = a.address.workchain) ∧
        HashesTo state revisions a.address.addr := by
  simp only [SmcEnvelope.Accepted, HashesTo, Plain, hasAddress, decide_eq_true_eq, GenericAccount.getAddress_eq_iff]
  constructor
  · rintro ⟨revision, hmem, s, hs, ⟨hworkchain, hhash, hplain⟩ | ⟨hworkchain, hhash, hplain⟩⟩
    · exact ⟨hplain, .inl hworkchain, revision, hmem, s, hs, hhash⟩
    · exact ⟨hplain, .inr hworkchain, revision, hmem, s, hs, hhash⟩
  · rintro ⟨hplain, hworkchain | hworkchain, revision, hmem, s, hs, hhash⟩
    · exact ⟨revision, hmem, s, hs, .inl ⟨hworkchain, hhash, hplain⟩⟩
    · exact ⟨revision, hmem, s, hs, .inr ⟨hworkchain, hhash, hplain⟩⟩

theorem hash_of_hasAddress {a : WalletAccount} {initState : Cell} (h : a.hasAddress initState = true) :
    initState.getHash maxLevel = a.address.addr := by
  rcases of_decide_eq_true h with h | h
  · exact (GenericAccount.getAddress_eq_iff.1 h).2.1
  · exact (GenericAccount.getAddress_eq_iff.1 h).2.1

section

variable {Data : Type} {type : WalletType} {revisions : List Int} {data : Result Data}
  {create : Data → Int → Result ContractState}

/-- The choice for a request depends on the flags exactly when the address is that of what the request says. -/
theorem flagBlind_tryRequested {a : WalletAccount} (ha : a.walletType = .empty) (htype : type ≠ .empty)
    (h : ∀ d, data = .ok d → Deploys (create d) revisions) :
    FlagBlind (fun a => a.tryRequested type revisions data create) a ↔ ¬ a.Requested revisions data create := by
  cases data with
  | error e =>
    have hnot : ¬ a.Requested revisions (.error e) create := by
      rintro ⟨-, d, hd, -⟩
      cases hd
    refine iff_of_true ?_ hnot
    intro bounceable testnet
    cases e <;> rfl
  | ok d =>
    refine @flagBlind_iff _ .ok _ _ [type] ?_ ?_ (fun _ _ => rfl) ?_
    · rintro ⟨hworkchain, d', hd', hhash⟩
      cases hd'
      rcases tryKind_cases (a.withFlags true false) type (h d rfl) (a.withFlags true false).hasAddress _ with
        ⟨-, hnot⟩ | ⟨revision, s, hbecome, -⟩
      · exact absurd ((accepted_hasAddress_iff (a := a.withFlags true false)).2 ⟨⟨rfl, rfl⟩, hworkchain, hhash⟩) hnot
      · exact ⟨_, hbecome, List.mem_singleton_self _⟩
    · intro bounceable testnet hnot
      rcases tryKind_cases (a.withFlags bounceable testnet) type (h d rfl) (a.withFlags bounceable testnet).hasAddress _
        with ⟨hnext, -⟩ | ⟨revision, s, -, -, hacc⟩
      · exact hnext
      · obtain ⟨hplain, hworkchain, hhash⟩ := accepted_hasAddress_iff.1 hacc
        exact absurd ⟨hplain, hworkchain, d, rfl, hhash⟩ hnot
    · intro a' hok hmem
      cases hok
      exact htype ((List.mem_singleton.1 hmem).symm.trans ha)

theorem stateHashes_tryRequested {a a' : WalletAccount} (ha : a.walletType = .empty)
    (h : ∀ d, data = .ok d → Deploys (create d) revisions) (hok : a.tryRequested type revisions data create = .ok a')
    (hne : a'.walletType ≠ .empty) : a'.StateHashes := by
  cases data with
  | error e =>
    cases e with
    | status s =>
      cases hok
      exact absurd ha hne
    | _ => cases hok
  | ok d =>
    have hok : a.tryKind type (firstRevision (create d) a.hasAddress revisions) (create d) (.ok a) = .ok a' := hok
    rcases tryKind_cases a type (h d rfl) a.hasAddress (.ok a) with ⟨hnext, -⟩ | ⟨revision, s, hbecome, haccepts, -⟩
    · rw [hnext] at hok
      cases hok
      exact absurd ha hne
    · rw [hbecome] at hok
      cases hok
      exact stateHashes_become (hash_of_hasAddress haccepts)

end

section

variable (memory : Fin 36 → UInt8)

omit [SmartContractCodes] in
theorem length_of_getPublicKeyOf {text : List Char} {k : PublicKey} (h : getPublicKeyOf memory text = .ok k) :
    k.key.length = 32 := by
  have h : PublicKey.parse memory text = .ok k := tryPrefix_ok_iff.1 h
  obtain ⟨_, -, h⟩ := bind_ok h
  split at h
  · exact absurd h fail_ne_ok
  · obtain ⟨_, -, h⟩ := bind_ok h
    obtain ⟨_, -, h⟩ := bind_ok h
    obtain ⟨_, -, h⟩ := bind_ok h
    obtain ⟨_, hlen, h⟩ := bind_ok h
    cases h
    exact not_not.1 (failIf_ok_iff.1 hlen)

theorem deploys_of_toInitData {initPublicKey publicKey : List Char} {walletId : Int64} {d : RestrictedWallet.InitData}
    (h : toInitData memory initPublicKey publicKey walletId = .ok d) :
    Deploys (RestrictedWallet.create d) CodeType.restrictedWallet.getRevisions := by
  obtain ⟨initKey, hinit, h⟩ := bind_ok h
  obtain ⟨mainKey, hmain, h⟩ := bind_ok h
  cases h
  exact RestrictedWallet.deploys (length_of_getPublicKeyOf memory hinit) (length_of_getPublicKeyOf memory hmain)

theorem deploys_of_toPchanConfig {config : Option PchanConfig} {c : PaymentChannel.Config}
    (h : toPchanConfig memory config = .ok c) :
    Deploys (PaymentChannel.create c) CodeType.paymentChannel.getRevisions := by
  obtain ⟨config, -, h⟩ := bind_ok h
  obtain ⟨aKey, ha, h⟩ := bind_ok h
  obtain ⟨bKey, hb, h⟩ := bind_ok h
  obtain ⟨_, -, h⟩ := bind_ok h
  obtain ⟨_, -, h⟩ := bind_ok h
  obtain ⟨_, -, h⟩ := bind_ok h
  obtain ⟨_, -, h⟩ := bind_ok h
  cases h
  exact PaymentChannel.deploys (length_of_getPublicKeyOf memory (tryPrefix_ok_iff.1 ha))
    (length_of_getPublicKeyOf memory (tryPrefix_ok_iff.1 hb)) rfl

/-- The address is that of the wallet or the channel that a request describes. -/
def RequestedBy (a : WalletAccount) : InitialState → Prop
  | .rwallet initPublicKey publicKey walletId => a.Requested CodeType.restrictedWallet.getRevisions
      (toInitData memory initPublicKey publicKey walletId) RestrictedWallet.create
  | .pchan config => a.Requested CodeType.paymentChannel.getRevisions (toPchanConfig memory config) PaymentChannel.create
  | .other => False

theorem flagBlind_guessTypeByInitState {a : WalletAccount} (ha : a.walletType = .empty) (initial : InitialState) :
    FlagBlind (guessTypeByInitState memory · initial) a ↔ ¬ a.RequestedBy memory initial := by
  have hstart : ∀ bounceable testnet, (a.withFlags bounceable testnet).guessTypeByInitState memory initial =
      (a.withFlags bounceable testnet).tryInitial memory initial := fun _ _ => if_neg (not_not.2 ha)
  have hself : a.guessTypeByInitState memory initial = a.tryInitial memory initial := if_neg (not_not.2 ha)
  have hcongr : FlagBlind (guessTypeByInitState memory · initial) a ↔ FlagBlind (tryInitial memory · initial) a := by
    unfold FlagBlind
    simp only [hstart, hself]
  rw [hcongr]
  cases initial with
  | rwallet initPublicKey publicKey walletId =>
    exact flagBlind_tryRequested ha (by decide) fun d hd => deploys_of_toInitData memory hd
  | pchan config => exact flagBlind_tryRequested ha (by decide) fun c hc => deploys_of_toPchanConfig memory hc
  | other => exact iff_of_true (fun _ _ => rfl) id

theorem stateHashes_guessTypeByInitState {a a' : WalletAccount} (ha : a.walletType = .empty) {initial : InitialState}
    (hok : a.guessTypeByInitState memory initial = .ok a') (hne : a'.walletType ≠ .empty) : a'.StateHashes := by
  rw [guessTypeByInitState, if_neg (not_not.2 ha)] at hok
  cases initial with
  | rwallet initPublicKey publicKey walletId =>
    exact stateHashes_tryRequested ha (fun d hd => deploys_of_toInitData memory hd) hok hne
  | pchan config => exact stateHashes_tryRequested ha (fun c hc => deploys_of_toPchanConfig memory hc) hok hne
  | other =>
    cases hok
    exact absurd ha hne

/-- The type, the revision and the state that are chosen for an account that is not deployed do not depend on the flags
of its address exactly when the address is not that of a kind that is recognized by the whole record. Whatever is
chosen, the state hashes to the address. -/
theorem guess_by_address {a : WalletAccount} (ha : a.walletType = .empty) (key : Bits256) (initial : InitialState) :
    ((FlagBlind (guessTypeByPublicKey · key) a ↔ ¬ a.Recognized key) ∧
      ∃ a', a.guessTypeByPublicKey key = .ok a' ∧ (a'.walletType ≠ .empty → a'.StateHashes)) ∧
    (FlagBlind (guessTypeByInitState memory · initial) a ↔ ¬ a.RequestedBy memory initial) ∧
    ∀ a', a.guessTypeByInitState memory initial = .ok a' → a'.walletType ≠ .empty → a'.StateHashes :=
  ⟨⟨flagBlind_guessTypeByPublicKey ha key, stateHashes_guessTypeByPublicKey ha key⟩,
    flagBlind_guessTypeByInitState memory ha initial, fun _ hok hne => stateHashes_guessTypeByInitState memory ha hok hne⟩

end

end WalletAccount

end

/-! ## A wallet asked for by a non-bounceable address -/

namespace WalletAccount.Sample

abbrev digest : Digest where
  sha256 bytes := BitVec.ofNat 256 (bytes.foldl (fun h b => (h * 257 + b.toNat + 1) % 2 ^ 256) 0)

/-- A code that is its name. -/
def codeCell (name : String) : Cell := .mk false (name.toList.flatMap fun c => natToBits 8 c.toNat) []

abbrev codes : SmartContractCodes where
  toDigest := digest
  load name := some (codeCell name)
  complete _ _ _ := ⟨_, rfl, @Cell.Within.mono digest _ _ _ (@Cell.Within.node digest 0 [] (List.forall_mem_nil _) _)
    (by simp [maxDepth])⟩

/-- The first wallet of the third version that a key of zeroes has. -/
def walletState : ContractState :=
  ⟨codeCell (CodeType.walletV3.codeName 1), .mk false [natToBits 32 0, natToBits 32 0, keyBits 0].flatten []⟩

/-- The account of the wallet, which is not deployed. -/
def account (bounceable : Bool) : WalletAccount where
  address := { workchain := 0, bounceable,
               addr := @Cell.getHash digest (GenericAccount.initStateCell walletState) maxLevel }
  balance := 0
  walletType := .empty

def noMemory : Fin 36 → UInt8 := fun _ => 0

theorem flagBlind_account_iff :
    FlagBlind (@guessTypeByPublicKey codes · 0) (account true) ↔ ¬ @Recognized codes (account true) 0 :=
  (@guess_by_address codes noMemory (account true) rfl 0 .other).1.1

/-- The wallet is recognized by its bounceable address only. -/
theorem not_flagBlind_account :
    ¬ ∀ (E : SmartContractCodes) (a : WalletAccount) (key : Bits256), a.walletType = .empty →
      FlagBlind (@guessTypeByPublicKey E · key) a := by
  intro h
  have hflags := h codes (account true) 0 rfl false false
  have hplain : (@guessTypeByPublicKey codes (account true) 0).map (fun a => a.walletType) = .ok .walletV3 := by
    decide +kernel
  have hother : (@guessTypeByPublicKey codes (account false) 0).map (fun a => a.walletType) = .ok .empty := by
    decide +kernel
  change @guessTypeByPublicKey codes (account false) 0 = (@guessTypeByPublicKey codes (account true) 0).map _ at hflags
  rw [hflags] at hother
  obtain ⟨a, ha, htype⟩ := map_eq_ok.1 hplain
  rw [ha] at hother
  obtain ⟨a', ha', htype'⟩ := map_eq_ok.1 hother
  cases ha'
  exact absurd (htype.symm.trans htype') (by decide)

end WalletAccount.Sample

end TonWallet.Tonlib.SendGrams
