/-
What `GenericCreateSendGrams::do_loop` makes sure of before it makes a wallet's query: the amounts are summed in 64 bits,
so the check against the balance is one of the sum only where the sum fits.
-/
import TonWallet.Tonlib.CreateSendGrams

namespace TonWallet.Tonlib.SendGrams

open Lib TonWallet.Td TonWallet.Vm TonWallet.Block TonWallet.SmcEnvelope Crypto Contracts

/-- Nothing is lost where all there are are values. -/
theorem reduceOption_map_some {α : Type} (l : List α) : (l.map some).reduceOption = l := by
  induction l with
  | nil => rfl
  | cons a l ih => exact congrArg (a :: ·) ih

/-! ## Sums in 64 bits -/

/-- The sum of some amounts, without bounds. -/
def exactTotal (amounts : List Int64) : Int := amounts.foldr (fun amount total => amount.toInt + total) 0

@[simp] theorem exactTotal_nil : exactTotal [] = 0 := rfl

@[simp] theorem exactTotal_cons (amount : Int64) (amounts : List Int64) :
    exactTotal (amount :: amounts) = amount.toInt + exactTotal amounts := rfl

theorem exactTotal_nonneg {amounts : List Int64} (h : ∀ amount ∈ amounts, 0 ≤ amount) : 0 ≤ exactTotal amounts := by
  induction amounts with
  | nil => exact Int.le_refl 0
  | cons amount amounts ih =>
    have hamount : 0 ≤ amount.toInt := Int64.le_iff_toInt_le.1 (h amount List.mem_cons_self)
    have htotal := ih fun a ha => h a (List.mem_cons_of_mem amount ha)
    rw [exactTotal_cons]
    omega

/-- Summing in 64 bits gives the sum's residue. -/
theorem toInt_foldl_add (amounts : List Int64) (start : Int64) :
    (amounts.foldl (· + ·) start).toInt = (start.toInt + exactTotal amounts).bmod (2 ^ 64) := by
  induction amounts generalizing start with
  | nil =>
    rw [exactTotal_nil, Int.add_zero]
    exact (Int64.toInt_bmod_size start).symm
  | cons amount amounts ih =>
    rw [List.foldl_cons, ih, Int64.toInt_add, Int.bmod_add_bmod, exactTotal_cons, Int.add_assoc]

/-- A sum that fits is its own residue. -/
theorem bmod_exactTotal {amounts : List Int64} (h : ∀ amount ∈ amounts, 0 ≤ amount) (hfits : exactTotal amounts < 2 ^ 63) :
    (exactTotal amounts).bmod (2 ^ 64) = exactTotal amounts := by
  have hnonneg := exactTotal_nonneg h
  apply Int.bmod_eq_of_le
  · omega
  · omega

/-! ## Transfers -/

/-- What the checks of the amount are about: the type and the balance of the source, what the method `balance` of a
restricted wallet answers, and the amounts. -/
structure Transfer where
  walletType : WalletType
  balance : Int64
  unlocked : Option Int64
  amounts : List Int64

namespace Transfer

/-- There is enough on the source for the exact sum of the amounts. -/
def Covered (t : Transfer) : Prop :=
  exactTotal t.amounts < t.balance.toInt ∧
    (t.walletType = .restrictedWallet → ∀ unlocked ∈ t.unlocked, exactTotal t.amounts ≤ unlocked.toInt)

/-- The sum as 64 bits hold it. -/
def residue (t : Transfer) : Int := (exactTotal t.amounts).bmod (2 ^ 64)

/-- The sum fits, or the message is refused all the same: for the number of its gifts, or for what 64 bits hold of it. -/
def Safe (t : Transfer) : Prop :=
  exactTotal t.amounts < 2 ^ 63 ∨ maxGiftsSize t.walletType < t.amounts.length ∨ t.balance.toInt ≤ t.residue ∨
    (t.walletType = .restrictedWallet ∧ ∃ unlocked ∈ t.unlocked, unlocked.toInt < t.residue)

end Transfer

section

variable [Contracts]

/-- The actor has everything that it asked for, and it is a transfer that it makes a wallet's query of. -/
structure Makes (g : GenericCreateSendGrams) (source : AccountState) (t : Transfer) : Prop where
  source_eq : g.source = some source
  walletType_eq : source.walletType = t.walletType
  balance_eq : source.balance = t.balance
  amounts_eq : g.actions.map Action.amount = t.amounts
  unlocked_eq : (runBalance source.getSmcState source.balance.toUInt64 source.genUtime).toOption = t.unlocked
  arrived : g.destinations.reduceOption.length = g.actions.length
  isNoDns : t.walletType ≠ .manualDns
  isNoChannel : t.walletType ≠ .paymentChannel
  isNoConfig : g.rwalletAction = true → t.walletType ≠ .restrictedWallet

/-! ## The request's amounts -/

theorem Action.withData_amount (a : Action) (hasPrivateKey : Bool) (data : MsgData) :
    (a.withData hasPrivateKey data).1.amount = a.amount := by
  unfold withData
  split
  · split
    · rfl
    · split <;> rfl
  · rfl
  · split <;> rfl
  · rfl

/-- An accepted amount is not negative, and is the action's. -/
theorem toAction_amount {memory : Fin 36 → UInt8} {hasPrivateKey : Bool} {message : MsgMessage} {a : Action}
    (h : toAction memory hasPrivateKey message = .ok a) : a.amount = message.amount ∧ 0 ≤ a.amount := by
  unfold toAction at h
  obtain ⟨text, -, h⟩ := bind_ok h
  obtain ⟨destination, -, h⟩ := bind_ok h
  obtain ⟨_, hnonneg, h⟩ := bind_ok h
  obtain ⟨publicKey, -, h⟩ := bind_ok h
  obtain ⟨-, -, h⟩ := bind_ok h
  obtain ⟨-, -, h⟩ := bind_ok h
  have hamount : a.amount = message.amount := by
    cases h
    exact Action.withData_amount _ hasPrivateKey message.data
  rw [refuseIf_ok_iff] at hnonneg
  refine ⟨hamount, ?_⟩
  rw [hamount]
  exact Int64.not_lt.1 hnonneg

namespace GenericCreateSendGrams

/-! ## The checks -/

variable {g : GenericCreateSendGrams} {source : AccountState}

theorem toInt_totalAmount (g : GenericCreateSendGrams) :
    g.totalAmount.toInt = (exactTotal (g.actions.map Action.amount)).bmod (2 ^ 64) := by
  have hfold := toInt_foldl_add (g.actions.map Action.amount) 0
  rw [List.foldl_map] at hfold
  rw [totalAmount, hfold, Int64.toInt_zero, Int.zero_add]

/-- What the checks say of the sum in 64 bits. -/
theorem checkAmount_ok {u : Unit} (h : g.checkAmount source = .ok u) :
    g.totalAmount < source.balance ∧ (source.walletType = .restrictedWallet → ∀ unlocked,
      unlockedBalance source = .ok unlocked → g.totalAmount ≤ unlocked.toInt64) := by
  unfold checkAmount at h
  obtain ⟨_, hgt, h⟩ := bind_ok h
  obtain ⟨_, hne, h⟩ := bind_ok h
  rw [refuseIf_ok_iff] at hgt hne
  constructor
  · exact Int64.lt_of_le_of_ne (Int64.not_lt.1 hgt) hne
  · intro hrestricted unlocked hunlocked
    rw [if_pos hrestricted, attempt_of_ok hunlocked] at h
    exact Int64.not_lt.1 (refuseIf_ok_iff.1 h)

theorem length_makeGifts {pairs : List (Action × AccountState)} {i : Nat} {gifts : List Gift}
    (h : g.makeGifts source i pairs = .ok gifts) : gifts.length = pairs.length := by
  induction pairs generalizing i gifts with
  | nil =>
    cases h
    rfl
  | cons pair pairs ih =>
    obtain ⟨gift, -, h⟩ := bind_ok h
    obtain ⟨rest, hrest, h⟩ := bind_ok h
    cases h
    rw [List.length_cons, List.length_cons, ih hrest]

/-- A wallet's query is made after the checks, of no more gifts than the wallet sends. -/
theorem doWalletLoop_ok {q : RawQuery AccountState} (h : g.doWalletLoop source = .ok q) :
    g.checkAmount source = .ok () ∧ ∃ gifts key body,
      g.makeGifts source 0 (g.actions.zip g.destinations.reduceOption) = .ok gifts ∧
      gifts.length ≤ maxGiftsSize source.walletType ∧
      makeAGiftMessage source.walletType source.getSmcState key (g.signingKey source).2 gifts = .ok body ∧
      rawQuery source g.destinations.reduceOption (g.signingKey source).2 body = .ok q := by
  unfold doWalletLoop at h
  obtain ⟨_, -, h⟩ := bind_ok h
  obtain ⟨_, -, h⟩ := bind_ok h
  obtain ⟨_, -, h⟩ := bind_ok h
  obtain ⟨_, hamount, h⟩ := bind_ok h
  obtain ⟨gifts, hgifts, h⟩ := bind_ok h
  obtain ⟨key, -, h⟩ := bind_ok h
  obtain ⟨_, hlength, h⟩ := bind_ok h
  obtain ⟨body, hbody, h⟩ := bind_ok h
  exact ⟨hamount, gifts, key, body, hgifts, Nat.not_lt.1 (refuseIf_ok_iff.1 hlength), hbody, h⟩

/-- A transfer is left to the last part of the loop. -/
theorem build_of_makes {t : Transfer} (hmakes : Makes g source t) : g.build source = some <$> g.doWalletLoop source := by
  unfold build
  rw [hmakes.walletType_eq, if_neg hmakes.isNoDns, if_neg hmakes.isNoChannel, if_neg]
  intro hconfig
  rw [Bool.and_eq_true, decide_eq_true_eq] at hconfig
  exact hmakes.isNoConfig hconfig.1 hconfig.2

theorem doLoop_of_makes {t : Transfer} {q : RawQuery AccountState} (hmakes : Makes g source t)
    (h : g.doLoop = .ok (some q)) : g.doWalletLoop source = .ok q := by
  unfold doLoop at h
  rw [hmakes.source_eq] at h
  dsimp only at h
  split at h
  · cases h
  · split at h
    · cases h
    · rw [build_of_makes hmakes] at h
      cases hloop : g.doWalletLoop source with
      | error f =>
        rw [hloop] at h
        cases h
      | ok q' =>
        rw [hloop] at h
        cases h
        rfl

/-- Where the sum fits, or the message would be refused anyway, a query is made only of what is covered. -/
theorem covered_of_safe {t : Transfer} {q : RawQuery AccountState} (hmakes : Makes g source t)
    (hamounts : ∀ amount ∈ t.amounts, 0 ≤ amount) (hsafe : t.Safe) (h : g.doLoop = .ok (some q)) : t.Covered := by
  obtain ⟨hcheck, gifts, -, -, hgifts, hlength, -, -⟩ := doWalletLoop_ok (doLoop_of_makes hmakes h)
  obtain ⟨hbalance, hunlocked⟩ := checkAmount_ok hcheck
  have htotal : g.totalAmount.toInt = t.residue := by
    rw [toInt_totalAmount, hmakes.amounts_eq]
    rfl
  have hbalance : t.residue < t.balance.toInt := by
    rw [← htotal, ← hmakes.balance_eq]
    exact Int64.lt_iff_toInt_lt.1 hbalance
  have hunlocked : t.walletType = .restrictedWallet → ∀ unlocked ∈ t.unlocked, t.residue ≤ unlocked.toInt := by
    intro hrestricted unlocked hmem
    rw [← hmakes.walletType_eq] at hrestricted
    rw [← hmakes.unlocked_eq] at hmem
    have hanswer : unlockedBalance source = .ok unlocked.toUInt64 := by
      cases hrun : runBalance source.getSmcState source.balance.toUInt64 source.genUtime with
      | error f =>
        rw [hrun] at hmem
        cases hmem
      | ok answer =>
        rw [hrun] at hmem
        cases hmem
        unfold unlockedBalance
        rw [hrun]
        rfl
    have hle := hunlocked hrestricted _ hanswer
    rw [Int64.toInt64_toUInt64] at hle
    rw [← htotal]
    exact Int64.le_iff_toInt_le.1 hle
  rcases hsafe with hfits | hmany | hrefused | ⟨hrestricted, unlocked, hmem, hrefused⟩
  · have hresidue : t.residue = exactTotal t.amounts := bmod_exactTotal hamounts hfits
    rw [hresidue] at hbalance hunlocked
    exact ⟨hbalance, hunlocked⟩
  · rw [length_makeGifts hgifts, List.length_zip, hmakes.arrived, Nat.min_self, hmakes.walletType_eq,
      ← List.length_map (f := Action.amount), hmakes.amounts_eq] at hlength
    omega
  · omega
  · have hle := hunlocked hrestricted unlocked hmem
    omega

/-! ## Queries that are made -/

/-- The checks accept a sum below both balances. -/
theorem checkAmount_of {unlocked : Option UInt64} (hbalance : g.totalAmount < source.balance)
    (hunlocked : attempt (unlockedBalance source) = .ok unlocked)
    (hle : source.walletType = .restrictedWallet → ∀ v ∈ unlocked, g.totalAmount ≤ v.toInt64) :
    g.checkAmount source = .ok () := by
  have hgt : refuseIf (g.totalAmount > source.balance) notEnoughFunds = .ok () :=
    refuseIf_ok_iff.2 (Int64.not_lt.2 (Int64.le_of_lt hbalance))
  have hne : refuseIf (g.totalAmount = source.balance) notEnoughFunds = .ok () :=
    refuseIf_ok_iff.2 (Int64.ne_of_lt hbalance)
  unfold checkAmount
  dsimp only
  rw [hgt, hne]
  change (if source.walletType = .restrictedWallet then _ else _) = _
  split
  · next hrestricted =>
    rw [hunlocked]
    cases unlocked with
    | none => rfl
    | some v => exact refuseIf_ok_iff.2 (Int64.not_lt.2 (hle hrestricted v rfl))
  · rfl

/-- Gifts without a body and with nothing to encrypt can be made. -/
theorem makeGifts_plain (source : AccountState) {pairs : List (Action × AccountState)} (i : Nat)
    (hplain : ∀ pair ∈ pairs, pair.1.body = none ∧ pair.1.shouldEncrypt = false) :
    ∃ gifts, g.makeGifts source i pairs = .ok gifts := by
  induction pairs generalizing i with
  | nil => exact ⟨[], rfl⟩
  | cons pair pairs ih =>
    obtain ⟨action, destination⟩ := pair
    obtain ⟨hbody, hencrypt⟩ := hplain _ List.mem_cons_self
    obtain ⟨gifts, hgifts⟩ := ih (i + 1) fun pair hpair => hplain pair (List.mem_cons_of_mem _ hpair)
    have hgift : ∃ gift, g.makeGift source i action destination = .ok gift := by
      unfold makeGift
      rw [hbody, hencrypt]
      exact ⟨_, rfl⟩
    obtain ⟨gift, hgift⟩ := hgift
    refine ⟨gift :: gifts, ?_⟩
    unfold makeGifts
    rw [hgift, hgifts]
    rfl

/-- The last part of the loop, where nothing is in the way. -/
theorem doWalletLoop_of {gifts : List Gift} {key : PrivateKey} {body : Cell} {q : RawQuery AccountState}
    (hwallet : source.isWallet = true) (hamount : g.checkAmount source = .ok ())
    (hgifts : g.makeGifts source 0 (g.actions.zip g.destinations.reduceOption) = .ok gifts)
    (hkey : (g.signingKey source).1 = some key) (hlength : gifts.length ≤ maxGiftsSize source.walletType)
    (hbody : makeAGiftMessage source.walletType source.getSmcState key (g.signingKey source).2 gifts = .ok body)
    (hquery : rawQuery source g.destinations.reduceOption (g.signingKey source).2 body = .ok q) :
    g.doWalletLoop source = .ok q := by
  have hempty : refuseIf (source.walletType = .empty) accountNotInited = .ok () := by
    rw [refuseIf_ok_iff]
    intro htype
    rw [AccountState.isWallet, htype] at hwallet
    cases hwallet
  have hunknown : refuseIf (source.walletType = .unknown) accountTypeUnknown = .ok () := by
    rw [refuseIf_ok_iff]
    intro htype
    rw [AccountState.isWallet, htype] at hwallet
    cases hwallet
  have hno : refuseIf (maxGiftsSize source.walletType < gifts.length) messageTooLong = .ok () :=
    refuseIf_ok_iff.2 (Nat.not_lt.2 hlength)
  unfold doWalletLoop
  rw [hempty, hunknown, hwallet, hamount, hgifts, hkey]
  change refuseIf (maxGiftsSize source.walletType < gifts.length) messageTooLong >>= _ = _
  rw [hno]
  change makeAGiftMessage _ _ key _ gifts >>= _ = _
  rw [hbody]
  exact hquery

end GenericCreateSendGrams

end

/-- Whatever else there is, the loop makes a wallet's query of a transfer only if it is covered. -/
def Transfer.OnlyCovered (t : Transfer) : Prop :=
  ∀ [Contracts] (g : GenericCreateSendGrams) (source : AccountState) (q : RawQuery AccountState),
    Makes g source t → g.doLoop = .ok (some q) → t.Covered

/-! ## An environment -/

namespace Sample

/-- Gifts, one cell each. -/
def giftsCell : List Gift → Cell
  | [] => .mk false [] []
  | gift :: gifts => .mk false (natToBits 64 gift.gramms.toUInt64.toNat) [giftsCell gifts]

/-- Accounts that run no code but a `balance` method, and messages that hold the gifts. -/
abbrev contracts (unlocked : Option Int64) : Contracts where
  toCrypto := SimpleEncryptionV2.Sample.crypto
  sha256 _ := 0
  InitialAccountState := Unit
  DnsRequest := Unit
  PchanInfo := Unit
  zeroKey := []
  stdBocDeserialize _ _ := .ok none
  guessTypeByInitState _ source := source
  guessTypeByPublicKey _ source := source
  guessTypeDefault _ source := source
  toDnsAction _ := failWith (emptyField "entry")
  runBalance _ _ _ := orStatus (.error "balance get method failed") unlocked
  walletPublicKey _ _ := fail "get_public_key get method failed"
  accountPublicKey _ := fail "get_public_key get method failed"
  makeAGiftMessage _ _ _ _ gifts := .ok (giftsCell gifts)
  createExtMessage _ _ body := .ok body
  createInitQuery _ _ _ := fail "not a DNS"
  createUpdateQuery _ _ _ _ := fail "not a DNS"
  pchanGetInfo _ := fail "not a payment channel"
  pchanIsAlice _ _ := false
  pchanIsBob _ _ := false
  pchanMessage _ _ _ _ _ := fail "not a payment channel"
  getInitMessage _ _ _ _ := fail "Wallet is already inited"

/-- An account of the basechain. -/
def account (walletType : WalletType) (balance : Int64) : AccountState :=
  { address := { workchain := 0, addr := 1 }, balance, walletType }

/-- The actor of a transfer when all has arrived. -/
def actor [Contracts] (t : Transfer) (key : PrivateKey) : GenericCreateSendGrams where
  query := ⟨none, none, 0, none, none⟩
  random _ _ := 0
  source := some (account t.walletType t.balance)
  destinations := (t.amounts.map fun _ => account .walletV3 0).map some
  privateKey := some key
  actions := t.amounts.map fun amount => { destination := { workchain := 0, addr := 2 }, amount }

theorem makes_actor (t : Transfer) (hdns : t.walletType ≠ .manualDns) (hchannel : t.walletType ≠ .paymentChannel) :
    @Makes (contracts t.unlocked) (@actor (contracts t.unlocked) t []) (account t.walletType t.balance) t := by
  refine @Makes.mk (contracts t.unlocked) _ _ _ ?_ ?_ ?_ ?_ ?_ ?_ ?_ ?_ ?_
  · rfl
  · rfl
  · rfl
  · exact (List.map_map).trans (List.map_id _)
  · change (orStatus _ t.unlocked).toOption = t.unlocked
    cases t.unlocked <;> rfl
  · change ((t.amounts.map fun _ => account .walletV3 0).map some).reduceOption.length = (t.amounts.map _).length
    rw [reduceOption_map_some, List.length_map, List.length_map]
  · exact hdns
  · exact hchannel
  · intro hconfig
    cases hconfig

/-- What sends gifts is a wallet. -/
theorem isWallet_account {walletType : WalletType} (balance : Int64) (hpos : 0 < maxGiftsSize walletType) :
    (account walletType balance).isWallet = true ∧ walletType ≠ .manualDns ∧ walletType ≠ .paymentChannel := by
  cases walletType with
  | empty | unknown | manualDns | paymentChannel => exact absurd hpos (by decide)
  | _ => exact ⟨rfl, by decide, by decide⟩

/-- The query of a transfer of which 64 bits hold less than there is. -/
theorem doLoop_actor {t : Transfer} (hmax : t.amounts.length ≤ maxGiftsSize t.walletType) (hne : t.amounts ≠ [])
    (hbalance : t.residue < t.balance.toInt)
    (hunlocked : t.walletType = .restrictedWallet → ∀ unlocked ∈ t.unlocked, t.residue ≤ unlocked.toInt) :
    @Makes (contracts t.unlocked) (@actor (contracts t.unlocked) t []) (account t.walletType t.balance) t ∧
      ∃ q, @GenericCreateSendGrams.doLoop (contracts t.unlocked) (@actor (contracts t.unlocked) t []) = .ok (some q) := by
  let _ := contracts t.unlocked
  let g : GenericCreateSendGrams := actor t []
  let source := account t.walletType t.balance
  have hpos : 0 < maxGiftsSize t.walletType := Nat.lt_of_lt_of_le (List.length_pos_iff.2 hne) hmax
  obtain ⟨hwallet, hdns, hchannel⟩ := isWallet_account t.balance hpos
  have hmakes : Makes g source t := makes_actor t hdns hchannel
  have htotal : g.totalAmount.toInt = t.residue := by
    rw [GenericCreateSendGrams.toInt_totalAmount, hmakes.amounts_eq]
    rfl
  have hattempt : GenericCreateSendGrams.attempt (GenericCreateSendGrams.unlockedBalance source) =
      .ok (t.unlocked.map Int64.toUInt64) := by
    change GenericCreateSendGrams.attempt (orStatus _ t.unlocked >>= _) = _
    cases t.unlocked <;> rfl
  have hamount : g.checkAmount source = .ok () := by
    refine GenericCreateSendGrams.checkAmount_of ?_ hattempt ?_
    · rw [Int64.lt_iff_toInt_lt, htotal]
      exact hbalance
    · intro hrestricted v hv
      obtain ⟨unlocked, hmem, rfl⟩ := Option.mem_map.1 hv
      rw [Int64.toInt64_toUInt64, Int64.le_iff_toInt_le, htotal]
      exact hunlocked hrestricted unlocked hmem
  have hplain : ∀ pair ∈ g.actions.zip g.destinations.reduceOption,
      pair.1.body = none ∧ pair.1.shouldEncrypt = false := by
    rintro ⟨action, destination⟩ hpair
    obtain ⟨amount, -, rfl⟩ := List.mem_map.1 (List.of_mem_zip hpair).1
    exact ⟨rfl, rfl⟩
  obtain ⟨gifts, hgifts⟩ := GenericCreateSendGrams.makeGifts_plain source 0 hplain
  have hlength : gifts.length ≤ maxGiftsSize source.walletType := by
    rw [GenericCreateSendGrams.length_makeGifts hgifts, List.length_zip, hmakes.arrived, Nat.min_self,
      ← List.length_map (f := Action.amount), hmakes.amounts_eq]
    exact hmax
  have hkey : ∃ key, (g.signingKey source).1 = some key := by
    unfold GenericCreateSendGrams.signingKey
    split <;> exact ⟨_, rfl⟩
  obtain ⟨key, hkey⟩ := hkey
  have hloop := GenericCreateSendGrams.doWalletLoop_of hwallet hamount hgifts hkey hlength rfl rfl
  refine ⟨hmakes, ?_⟩
  change ∃ q, g.build source = .ok (some q)
  rw [GenericCreateSendGrams.build_of_makes hmakes, hloop]
  exact ⟨_, rfl⟩

end Sample

/-- A transfer's query is made only if it is covered, exactly if the sum fits in 64 bits or the query would not be made
anyway. -/
theorem Transfer.onlyCovered_iff (t : Transfer) (hamounts : ∀ amount ∈ t.amounts, 0 ≤ amount) : t.OnlyCovered ↔ t.Safe := by
  constructor
  · intro hcovered
    by_contra hsafe
    unfold Safe at hsafe
    push Not at hsafe
    obtain ⟨hover, hmax, hbalance, hunlocked⟩ := hsafe
    have hne : t.amounts ≠ [] := by
      intro hnil
      rw [hnil, exactTotal_nil] at hover
      omega
    obtain ⟨hmakes, q, hq⟩ := Sample.doLoop_actor hmax hne hbalance hunlocked
    obtain ⟨henough, -⟩ := @hcovered (Sample.contracts t.unlocked) _ _ q hmakes hq
    have hlt := t.balance.toInt_lt
    omega
  · intro hsafe _ g source q hmakes hloop
    exact GenericCreateSendGrams.covered_of_safe hmakes hamounts hsafe hloop

namespace Sample

/-- Two gifts of a restricted wallet, as much as is unlocked. -/
def twoGifts : Transfer := ⟨.restrictedWallet, 1000, some 500, [200, 300]⟩

theorem onlyCovered_twoGifts : twoGifts.OnlyCovered := by
  refine (Transfer.onlyCovered_iff twoGifts ?_).2 (.inl (by decide))
  exact List.forall_mem_cons.2 ⟨by decide, List.forall_mem_singleton.2 (by decide)⟩

/-- Four gifts whose sum is nothing in 64 bits. -/
def fourGifts : Transfer := ⟨.walletV3, 1000, none, List.replicate 4 0x4000000000000000⟩

/-- A wallet with 1000 sends four times more than there is. -/
theorem not_onlyCovered : ¬ ∀ t : Transfer, (∀ amount ∈ t.amounts, 0 ≤ amount) → t.OnlyCovered := by
  intro hclaim
  obtain ⟨hmakes, q, hq⟩ := doLoop_actor (t := fourGifts) (by decide) (by decide) (by decide) (by decide)
  have hamounts : ∀ amount ∈ fourGifts.amounts, 0 ≤ amount := by
    intro amount hamount
    rw [List.eq_of_mem_replicate hamount]
    decide
  have henough := (@hclaim fourGifts hamounts (contracts none) _ _ q hmakes hq).1
  exact absurd henough (by decide)

end Sample

end TonWallet.Tonlib.SendGrams
