/-
What `loadCache` makes of what `saveCache` has written: every record is read back through its prefix, so
the cache comes back whole exactly when it holds nothing the writer leaves out or the reader ignores.
-/
import TonWallet.App.Cache

namespace TonWallet.App

open Lib Lib.Entries Preferences

/-! ## Messages -/

def msgDataKeys : List String := ["msgDataType", "msgData.body", "msgData.initState", "msgData.text"]

theorem get_saveMsgData_of_not_mem (d : MsgData) {k : String} (h : k ∉ msgDataKeys) : get (saveMsgData d) k = none := by
  refine get_eq_none fun e he hk => h ?_
  rw [← hk]
  cases d <;> simp [saveMsgData] at he <;> rcases he with rfl | rfl | rfl <;> simp [msgDataKeys]

theorem loadMsgData_of_get {prefs : Preferences} {key : String} {d : MsgData}
    (h : ∀ k ∈ msgDataKeys, prefs.get (key ++ k) = get (saveMsgData d) k) : loadMsgData prefs key = some d := by
  have htype := h "msgDataType" (by simp [msgDataKeys])
  have hbody := h "msgData.body" (by simp [msgDataKeys])
  have hinit := h "msgData.initState" (by simp [msgDataKeys])
  have htext := h "msgData.text" (by simp [msgDataKeys])
  cases d with
  | raw body initState =>
    simp [loadMsgData, loadMsgDataOf, getInt, htype, getBytes, hbody, hinit, saveMsgData]
  | text text => simp [loadMsgData, loadMsgDataOf, getInt, htype, getBytes, htext, saveMsgData]
  | decryptedText text => simp [loadMsgData, loadMsgDataOf, getInt, htype, getBytes, htext, saveMsgData]
  | encryptedText text => simp [loadMsgData, loadMsgDataOf, getInt, htype, getBytes, htext, saveMsgData]

/-- A message is read back through the prefix it was written under. -/
theorem loadMessage_of_holds {prefs : Preferences} {key : String} {m : RawMessage}
    (h : prefs.Holds key (saveMessage m)) : loadMessage prefs key = some m := by
  have hdata : loadMsgData prefs key = some m.msgData := by
    refine loadMsgData_of_get fun k hk => (h k).trans ?_
    simp only [msgDataKeys, List.mem_cons, List.not_mem_nil, or_false] at hk
    rcases hk with rfl | rfl | rfl | rfl <;> simp [saveMessage]
  have hnone {k : String} (hk : k ∉ msgDataKeys) := get_saveMsgData_of_not_mem m.msgData hk
  simp [loadMessage, hdata, getLong, getString, getBytes, h _, saveMessage, hnone, msgDataKeys]

/-! ## Transactions -/

theorem get_saveInMsg_of_not_startsWith {m : Option RawMessage} {k : String} (h : startsWith "inMsg." k = false) :
    get (saveInMsg m) k = none := by
  cases m with
  | none => rfl
  | some m => exact get_under_of_not_startsWith _ h

/-- The incoming message stands alone under its prefix. -/
theorem get_saveTransaction_inMsg (t : RawTransaction) (k : String) :
    get (saveTransaction t) ("inMsg." ++ k) = get (saveInMsg t.inMsg) ("inMsg." ++ k) := by
  have hout : get (saveOutMsgs t.outMsgs) ("inMsg." ++ k) = none := by
    refine get_append_of_not_startsWith (fun e he => ?_) k
    cases ho : t.outMsgs with
    | none => simp [ho, saveOutMsgs] at he
    | some ms =>
      rw [ho, saveOutMsgs] at he
      rcases List.mem_cons.1 he with rfl | he
      · simp [startsWith, List.isPrefixOf]
      · obtain ⟨j, k', hj⟩ := exists_of_mem_indexedFrom e he
        rw [hj, startsWith, toList_numbered_append]
        rfl
  rw [saveTransaction, get_append, get_append, hout, Option.none_or, get_append_of_not_startsWith, Option.none_or]
  simp [startsWith, List.isPrefixOf]

/-- The outgoing messages stand alone under their numbered prefixes. -/
theorem get_saveTransaction_outMsg (t : RawTransaction) (i : Nat) (k : String) :
    get (saveTransaction t) (numbered "outMsg" i ++ k) = get (saveOutMsgs t.outMsgs) (numbered "outMsg" i ++ k) := by
  have hin : get (saveInMsg t.inMsg) (numbered "outMsg" i ++ k) = none := by
    refine get_saveInMsg_of_not_startsWith ?_
    rw [startsWith, toList_numbered_append]
    rfl
  rw [saveTransaction, get_append, get_append, hin, Option.or_none, get_numbered_of_not_isNumbered, Option.none_or]
  simp [isNumbered, startsWith]

/-- What comes back of a transaction: an incoming message without a source is taken for none. -/
def RawTransaction.restored (t : RawTransaction) : RawTransaction :=
  { t with inMsg := t.inMsg.filter fun m => m.source.isSome }

theorem loadInMsg_of_get {prefs : Preferences} {key : String} {m : Option RawMessage}
    (h : ∀ k, prefs.get (key ++ k) = get (saveInMsg m) ("inMsg." ++ k)) :
    loadInMsg prefs key = some (m.filter fun m => m.source.isSome) := by
  cases m with
  | none => simp [loadInMsg, Preferences.contains, h, saveInMsg]
  | some m =>
    have hm : prefs.Holds key (saveMessage m) := fun k => (h k).trans (get_under "inMsg." _ k)
    have hsource : prefs.contains (key ++ "source") = m.source.isSome := by
      have hnone := get_saveMsgData_of_not_mem m.msgData (k := "source") (by simp [msgDataKeys])
      simp [Preferences.contains, hm _, saveMessage, hnone]
    cases hs : m.source.isSome <;> simp [loadInMsg, hsource, hs, loadMessage_of_holds hm, Option.filter]

/-- Messages are read back in order through their numbered prefixes. -/
theorem loadMessages_of_get {prefs : Preferences} {key : String} {ms : List RawMessage}
    (h : ∀ i k, prefs.get (numbered key i ++ k) = (ms[i]?).bind fun m => get (saveMessage m) k) :
    loadMessages prefs key ms.length = some ms := by
  have hlen : ¬ (ms.length : Int) < 0 := by omega
  have hread : (List.range ms.length).mapM (fun b => loadMessage prefs (numbered key b)) = some (ms.map id) := by
    refine mapM_range fun i m hm => loadMessage_of_holds fun k => ?_
    rw [h, hm]
    rfl
  rw [loadMessages, if_neg hlen, Int.toNat_natCast, hread, List.map_id]

theorem loadOutMsgs_of_get {prefs : Preferences} {key : String} {ms : Option (List RawMessage)}
    (hcount : prefs.get (key ++ "outMsgCount") = get (saveOutMsgs ms) "outMsgCount")
    (h : ∀ i k, prefs.get (key ++ (numbered "outMsg" i ++ k)) = get (saveOutMsgs ms) (numbered "outMsg" i ++ k)) :
    loadOutMsgs prefs key = some ms := by
  cases ms with
  | none => simp [loadOutMsgs, Preferences.contains, hcount, saveOutMsgs]
  | some ms =>
    have hnum : get (indexed "outMsg" (ms.map saveMessage)) "outMsgCount" = none :=
      get_indexed_of_not_isNumbered _ (by decide)
    have hms : loadMessages prefs (key ++ "outMsg") ms.length = some ms := by
      refine loadMessages_of_get fun i k => ?_
      rw [numbered_append, String.append_assoc, h, saveOutMsgs, get_cons, get_indexed]
      have hne : "outMsgCount" ≠ numbered "outMsg" i ++ k := by
        intro he
        have := isNumbered_numbered "outMsg" i k
        rw [← he] at this
        revert this
        decide
      simp [hne, Option.bind_map, Function.comp_def]
    simp [loadOutMsgs, Preferences.contains, getInt, hcount, saveOutMsgs, hnum, hms]

/-- A transaction is read back through the prefix it was written under. -/
theorem loadTransaction_of_holds {prefs : Preferences} {key : String} {t : RawTransaction}
    (h : prefs.Holds key (saveTransaction t)) : loadTransaction prefs key = some t.restored := by
  have hin : loadInMsg prefs (key ++ "inMsg.") = some (t.inMsg.filter fun m => m.source.isSome) :=
    loadInMsg_of_get fun k => by rw [String.append_assoc, h, get_saveTransaction_inMsg]
  have hout : loadOutMsgs prefs key = some t.outMsgs := by
    refine loadOutMsgs_of_get ?_ fun i k => by rw [h, get_saveTransaction_outMsg]
    rw [h]
    have hnone : get (saveInMsg t.inMsg) "outMsgCount" = none := get_saveInMsg_of_not_startsWith (by decide)
    simp [saveTransaction, hnone]
  simp only [loadTransaction, hin, hout]
  simp [getLong, getBytes, h _, saveTransaction, RawTransaction.restored]

/-- What comes back of a pending transaction: its deadline is lost. -/
def PendingTransaction.restored (p : PendingTransaction) : PendingTransaction := { p with otherFee := 0 }

theorem loadPending_of_holds {prefs : Preferences} {key : String} {p : PendingTransaction}
    (h : prefs.Holds key (savePending p)) : loadPending prefs key = some p.restored := by
  have hdata : loadMsgData prefs key = some p.msgData := by
    refine loadMsgData_of_get fun k hk => (h k).trans ?_
    simp only [msgDataKeys, List.mem_cons, List.not_mem_nil, or_false] at hk
    rcases hk with rfl | rfl | rfl | rfl <;> simp [savePending]
  have hnone {k : String} (hk : k ∉ msgDataKeys) := get_saveMsgData_of_not_mem p.msgData hk
  simp [loadPending, hdata, getLong, getString, getBytes, h _, savePending, hnone, msgDataKeys,
    PendingTransaction.restored]

/-! ## The account state -/

/-- What comes back of an account state: the configuration of a restricted wallet and all of a payment
channel are lost. -/
def AccountState.restored : AccountState → AccountState
  | .rwallet walletId seqno unlockedBalance _ => .rwallet walletId seqno unlockedBalance none
  | .pchan _ _ _ => .pchan none none none
  | s => s

def accountStateKeys : List String :=
  ["accountStateType", "accountstate.seqno", "accountstate.walletId", "accountstate.unlockedBalance",
    "accountstate.frozenHash", "accountstate.data", "accountstate.code"]

theorem loadAccountState_of_get {prefs : Preferences} {s : AccountState}
    (h : ∀ k ∈ accountStateKeys, prefs.get k = get (saveFields s.fields) k) :
    prefs.getInt "accountStateType" 0 = some s.fields.accountStateType ∧
      loadAccountStateOf prefs s.fields.accountStateType = some s.restored := by
  simp only [accountStateKeys, List.forall_mem_cons] at h
  obtain ⟨htype, hseqno, hwallet, hunlocked, hfrozen, hdata, hcode, -⟩ := h
  refine ⟨by simp [getInt, htype, saveFields], ?_⟩
  cases s <;> simp [loadAccountStateOf, AccountState.fields, AccountState.restored, getInt, getLong, getBytes, hseqno,
    hwallet, hunlocked, hfrozen, hdata, hcode, saveFields]

/-- What comes back of the full state: the address is that of the user's configuration. -/
def FullAccountState.restored (a : FullAccountState) (tonAccountAddress : Option String) : FullAccountState :=
  { a with address := tonAccountAddress, accountState := a.accountState.restored }

def accountKeys : List String :=
  ["state.balance", "transaction.lt", "transaction.hash", "syncUtime", "revision", "tonblock.workchain",
    "tonblock.shard", "tonblock.seqno", "tonblock.rootHash", "tonblock.fileHash"] ++ accountStateKeys

theorem mem_accountStateKeys {f : AccountFields} : ∀ e ∈ saveFields f, e.1 ∈ accountStateKeys := by
  intro e he
  simp only [saveFields, opt, List.mem_append, List.mem_cons, List.not_mem_nil, or_false, Option.mem_toList,
    Option.map_eq_some_iff] at he
  rcases he with ((((rfl | rfl | rfl | rfl) | ⟨_, _, rfl⟩) | ⟨_, _, rfl⟩) | ⟨_, _, rfl⟩) <;> simp [accountStateKeys]

theorem mem_accountKeys {a : FullAccountState} : ∀ e ∈ saveAccount a, e.1 ∈ accountKeys := by
  intro e he
  rcases List.mem_append.1 he with he | he
  · simp only [List.mem_cons, List.not_mem_nil, or_false] at he
    rcases he with rfl | rfl | rfl | rfl | rfl | rfl | rfl | rfl | rfl | rfl <;> simp [accountKeys]
  · exact List.mem_append_right _ (mem_accountStateKeys e he)

theorem loadAccount_of_get {prefs : Preferences} {a : FullAccountState} (tonAccountAddress : Option String)
    (h : ∀ k ∈ accountKeys, prefs.get k = get (saveAccount a) k) :
    loadAccount prefs tonAccountAddress = some (a.restored tonAccountAddress) := by
  have hstate : ∀ k ∈ accountStateKeys, prefs.get k = get (saveFields a.accountState.fields) k := by
    intro k hk
    rw [h k (List.mem_append_right _ hk)]
    simp only [accountStateKeys, List.mem_cons, List.not_mem_nil, or_false] at hk
    rcases hk with rfl | rfl | rfl | rfl | rfl | rfl | rfl <;> simp [saveAccount]
  obtain ⟨htype, hstate⟩ := loadAccountState_of_get hstate
  have hnone {k : String} (hk : k ∉ accountStateKeys) : get (saveFields a.accountState.fields) k = none :=
    get_eq_none fun e he hek => hk (hek ▸ mem_accountStateKeys e he)
  simp only [accountKeys, List.forall_mem_append, List.forall_mem_cons] at h
  obtain ⟨⟨hbalance, hlt, hhash, hsync, hrev, hwc, hshard, hseqno, hroot, hfile, -⟩, -⟩ := h
  simp only [loadAccount, htype, Option.bind_eq_bind, Option.bind_some, hstate]
  simp [getLong, getInt, getBytes, hbalance, hlt, hhash, hsync, hrev, hwc, hshard, hseqno,
    hroot, hfile, saveAccount, hnone, accountStateKeys, FullAccountState.restored]

/-! ## The whole cache -/

/-- Keys of the account are keys of no list. -/
theorem not_isNumbered_of_mem_accountKeys {p : String} (hp : p = "transaction" ∨ p = "pending") :
    ∀ k ∈ accountKeys, isNumbered p k = false := by
  rcases hp with rfl | rfl <;> decide

section

variable (account : FullAccountState) (transactions : List RawTransaction) (pending : List PendingTransaction)

theorem get_saveEntries_account {k : String} (hk : k ∈ accountKeys) :
    get (saveEntries account transactions pending) k = get (saveAccount account) k := by
  have ht := not_isNumbered_of_mem_accountKeys (Or.inl rfl) k hk
  have hp := not_isNumbered_of_mem_accountKeys (Or.inr rfl) k hk
  have hne : "transactionsCount" ≠ k ∧ "pendingCount" ≠ k ∧ "hasCache" ≠ k := by
    revert k
    decide
  simp [saveEntries, get_indexed_of_not_isNumbered _ ht, get_indexed_of_not_isNumbered _ hp, hne]

/-- A single entry that is none of a list's. -/
theorem get_singleton_numbered {p c : String} (v : PrefValue) (hc : isNumbered p c = false) (i : Nat) (k : String) :
    get [(c, v)] (numbered p i ++ k) = none := by
  refine get_numbered_of_not_isNumbered (fun e he => ?_) i k
  rw [List.mem_singleton.1 he]
  exact hc

theorem get_saveAccount_numbered {p : String} (hp : p = "transaction" ∨ p = "pending") (i : Nat) (k : String) :
    get (saveAccount account) (numbered p i ++ k) = none :=
  get_numbered_of_not_isNumbered (fun e he => not_isNumbered_of_mem_accountKeys hp _ (mem_accountKeys e he)) i k

theorem holds_saveEntries_transaction {i : Nat} {t : RawTransaction} (h : (transactions.take 10)[i]? = some t) :
    (saveEntries account transactions pending).Holds (numbered "transaction" i) (saveTransaction t) := by
  intro k
  have hpend : get (indexed "pending" (pending.map savePending)) (numbered "transaction" i ++ k) = none := by
    refine get_indexed_of_not_isNumbered _ ?_
    rw [isNumbered, startsWith, toList_numbered_append]
    rfl
  simp only [saveEntries, get_append, hpend, get_saveAccount_numbered account (Or.inl rfl) i k,
    get_singleton_numbered _ (show isNumbered "transaction" "hasCache" = false by decide),
    get_singleton_numbered _ (show isNumbered "transaction" "pendingCount" = false by decide),
    get_singleton_numbered _ (show isNumbered "transaction" "transactionsCount" = false by decide),
    get_indexed, List.getElem?_map, h]
  simp

theorem holds_saveEntries_pending {i : Nat} {p : PendingTransaction} (h : pending[i]? = some p) :
    (saveEntries account transactions pending).Holds (numbered "pending" i) (savePending p) := by
  intro k
  have htrans : get (indexed "transaction" ((transactions.take 10).map saveTransaction))
      (numbered "pending" i ++ k) = none := by
    refine get_indexed_of_not_isNumbered _ ?_
    rw [isNumbered, startsWith, toList_numbered_append]
    rfl
  simp only [saveEntries, get_append, htrans, get_saveAccount_numbered account (Or.inr rfl) i k,
    get_singleton_numbered _ (show isNumbered "pending" "hasCache" = false by decide),
    get_singleton_numbered _ (show isNumbered "pending" "pendingCount" = false by decide),
    get_singleton_numbered _ (show isNumbered "pending" "transactionsCount" = false by decide),
    get_indexed, List.getElem?_map, h]
  simp

theorem loadPendings_saveEntries {n a : Nat} (h : n + a = pending.length) :
    loadPendings (saveEntries account transactions pending) n a =
      ((pending.drop a).map PendingTransaction.restored, true) := by
  induction n generalizing a with
  | zero => simp [loadPendings, List.drop_of_length_le (show pending.length ≤ a by omega)]
  | succ n ih =>
    have ha : a < pending.length := by omega
    have hload := loadPending_of_holds
      (holds_saveEntries_pending account transactions pending (List.getElem?_eq_getElem ha))
    rw [loadPendings, hload]
    simp only [ih (show n + (a + 1) = pending.length by omega)]
    rw [List.drop_eq_getElem_cons ha, List.map_cons]

theorem loadTransactions_saveEntries :
    loadTransactions (saveEntries account transactions pending) =
      some ((transactions.take 10).map RawTransaction.restored) := by
  have hcount : (saveEntries account transactions pending).getInt "transactionsCount" 0 =
      some ((transactions.take 10).length : Int) := by
    simp [getInt, saveEntries, List.length_take,
      get_indexed_of_not_isNumbered _ (show isNumbered "transaction" "transactionsCount" = false by decide),
      get_indexed_of_not_isNumbered _ (show isNumbered "pending" "transactionsCount" = false by decide)]
  rw [loadTransactions, hcount, Option.bind_eq_bind, Option.bind_some, Int.toNat_natCast]
  exact mapM_range fun i t ht =>
    loadTransaction_of_holds (holds_saveEntries_transaction account transactions pending ht)

theorem getInt_pendingCount :
    (saveEntries account transactions pending).getInt "pendingCount" 0 = some (pending.length : Int) := by
  simp [getInt, saveEntries,
    get_indexed_of_not_isNumbered _ (show isNumbered "pending" "pendingCount" = false by decide)]

theorem getBoolean_hasCache :
    (saveEntries account transactions pending).getBoolean "hasCache" false = some true := by
  simp [getBoolean, saveEntries]

end

/-- What comes back of the cache. -/
def Cache.restored (c : Cache) (tonAccountAddress : Option String) : Cache where
  accountState := c.accountState.map fun a => a.restored tonAccountAddress
  transactions := (c.transactions.take 10).map RawTransaction.restored
  pending := c.pending.map PendingTransaction.restored

/-- Loading what was saved gives back every field the writer writes and the reader reads. -/
theorem loadCache_saveCache {prefs : Preferences} {c : Cache} {a : FullAccountState}
    (tonAccountAddress : Option String) (ha : c.accountState = some a) :
    loadCache (saveCache prefs c) tonAccountAddress = c.restored tonAccountAddress := by
  have hknown : loadKnown (saveEntries a c.transactions c.pending) tonAccountAddress =
      some (a.restored tonAccountAddress, (c.transactions.take 10).map RawTransaction.restored) := by
    rw [loadKnown, loadAccount_of_get tonAccountAddress fun k => get_saveEntries_account a c.transactions c.pending,
      loadTransactions_saveEntries]
    rfl
  have hpending := loadPendings_saveEntries a c.transactions c.pending (Nat.add_zero c.pending.length)
  rw [saveCache, ha, loadCache, if_pos (getBoolean_hasCache a c.transactions c.pending), hknown,
    getInt_pendingCount]
  simp [hpending, Cache.restored, ha]

/-! ## When nothing is lost -/

/-- The kinds of account states that are written with all they hold. -/
def AccountState.Written : AccountState → Prop
  | .rwallet _ _ _ config => config = none
  | .pchan config state description => config = none ∧ state = none ∧ description = none
  | _ => True

theorem AccountState.restored_eq_iff (s : AccountState) : s.restored = s ↔ s.Written := by
  cases s with
  | rwallet walletId seqno unlockedBalance config => simp [restored, Written, eq_comm]
  | pchan config state description => simp [restored, Written, eq_comm]
  | _ => simp [restored, Written]

/-- The cache holds nothing that is not written or not read back. -/
structure Cache.Restorable (c : Cache) (tonAccountAddress : Option String) : Prop where
  address : ∀ a, c.accountState = some a → a.address = tonAccountAddress
  written : ∀ a, c.accountState = some a → a.accountState.Written
  source : ∀ t ∈ c.transactions, ∀ m, t.inMsg = some m → m.source ≠ none
  deadline : ∀ p ∈ c.pending, p.otherFee = 0

theorem RawTransaction.restored_eq_iff (t : RawTransaction) :
    t.restored = t ↔ ∀ m, t.inMsg = some m → m.source ≠ none := by
  obtain ⟨utime, data, transactionId, fee, storageFee, otherFee, inMsg, outMsgs⟩ := t
  cases inMsg with
  | none => simp [restored]
  | some m => cases hs : m.source <;> simp [restored, Option.filter, hs]

theorem PendingTransaction.restored_eq_iff (p : PendingTransaction) : p.restored = p ↔ p.otherFee = 0 := by
  cases p
  simp [restored, eq_comm]

theorem FullAccountState.restored_eq_iff (a : FullAccountState) (tonAccountAddress : Option String) :
    a.restored tonAccountAddress = a ↔ a.address = tonAccountAddress ∧ a.accountState.Written := by
  rw [← AccountState.restored_eq_iff]
  cases a
  simp [restored, eq_comm]

theorem map_eq_self_iff {α : Type} {f : α → α} {l : List α} : l.map f = l ↔ ∀ x ∈ l, f x = x := by
  simpa using List.map_inj_left (f := f) (g := id) (l := l)

theorem Cache.restored_eq_iff {c : Cache} (tonAccountAddress : Option String) (hlen : c.transactions.length ≤ 10) :
    c.restored tonAccountAddress = c ↔ c.Restorable tonAccountAddress := by
  obtain ⟨accountState, transactions, pending⟩ := c
  have hstate : accountState.map (fun a => a.restored tonAccountAddress) = accountState ↔
      ∀ a, accountState = some a → a.address = tonAccountAddress ∧ a.accountState.Written := by
    cases accountState with
    | none => simp
    | some a => simp [FullAccountState.restored_eq_iff]
  rw [restored, Cache.mk.injEq, hstate, List.take_of_length_le hlen, map_eq_self_iff, map_eq_self_iff]
  simp only [RawTransaction.restored_eq_iff, PendingTransaction.restored_eq_iff]
  constructor
  · rintro ⟨ha, ht, hp⟩
    exact ⟨fun a h => (ha a h).1, fun a h => (ha a h).2, ht, hp⟩
  · rintro ⟨haddress, hwritten, ht, hp⟩
    exact ⟨fun a h => ⟨haddress a h, hwritten a h⟩, ht, hp⟩

/-- The cache comes back as it was saved exactly when no pending transaction has a deadline, and nothing
else it holds is left out. -/
theorem loadCache_saveCache_iff {prefs : Preferences} {c : Cache} {a : FullAccountState}
    {tonAccountAddress : Option String} (ha : c.accountState = some a) (hlen : c.transactions.length ≤ 10) :
    loadCache (saveCache prefs c) tonAccountAddress = c ↔ c.Restorable tonAccountAddress := by
  rw [loadCache_saveCache tonAccountAddress ha]
  exact Cache.restored_eq_iff tonAccountAddress hlen

namespace Sample

/-- The state of a wallet with an account. -/
def account (syncUtime : Int) : FullAccountState where
  address := some "wallet"
  balance := 1000
  lastTransactionId := ⟨7, [1, 2, 3]⟩
  blockId := ⟨-1, 0, 5, [4], [5, 6]⟩
  syncUtime
  accountState := .walletV3 698983191 3
  revision := 1

/-- A payment on its way. -/
def payment (validUntil : Int) : PendingTransaction where
  utime := 10
  source := some "wallet"
  destination := some "shop"
  value := -5
  bodyHash := [9, 9]
  msgData := .decryptedText [104, 105]
  otherFee := validUntil

def cache (validUntil : Int) : Cache := ⟨some (account 20), [], [payment validUntil]⟩

theorem loadCache_saveCache_no_deadline :
    loadCache (saveCache [] (cache 0)) (some "wallet") = cache 0 := by
  refine (loadCache_saveCache_iff (a := account 20) rfl (Nat.zero_le _)).2 ?_
  refine ⟨fun a h => ?_, fun a h => ?_, fun t h => ?_, fun p h => ?_⟩
  · cases h; rfl
  · cases h; trivial
  · cases h
  · cases List.mem_singleton.1 h; rfl

/-- A payment that is valid until 100 comes back valid until 0. -/
theorem loadCache_loses_deadline :
    ¬ ∀ (prefs : Preferences) (c : Cache) (a : FullAccountState), c.accountState = some a →
      c.transactions.length ≤ 10 → loadCache (saveCache prefs c) a.address = c := by
  intro h
  have hc := h [] (cache 100) (account 20) rfl (Nat.zero_le _)
  rw [loadCache_saveCache _ rfl] at hc
  revert hc
  decide

end Sample

end TonWallet.App
