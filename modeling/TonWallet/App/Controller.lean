/-
The payments `TonController` shows as on their way: they are added when a query was sent, removed by the
answers of the library in two loops over the list, saved with every change and loaded after a restart of
the application. The list is what the rules for adding and removing alone make of the events, up to the
restart that brings a payment back without its deadline.
-/
import TonWallet.App.CacheRestore
import TonWallet.Lib.RemoveLoop
import TonWallet.Lib.Run

namespace TonWallet.App

open Lib Lib.Entries

/-- The controller's cache and its preferences. -/
structure Controller where
  cache : Cache := {}
  tonCache : Preferences := []

/-- What a successful `sendGrams` knows of its payment. -/
structure Sent where
  now : Int
  fromWallet : String
  toWallet : String
  amount : Int
  message : Bytes
  queryInfo : QueryInfo

/-- The transaction `sendGrams` shows for the payment. -/
def Sent.sendingTransaction (s : Sent) : PendingTransaction where
  utime := s.now
  source := some s.fromWallet
  destination := some s.toWallet
  value := -s.amount
  bodyHash := s.queryInfo.bodyHash
  msgData := .decryptedText s.message
  otherFee := s.queryInfo.validUntil

/-- `Arrays.equals` of the body hashes, for a transaction that has an incoming message. -/
def carries (pending : PendingTransaction) (t : RawTransaction) : Bool :=
  t.inMsg.any fun m => decide (pending.bodyHash = m.bodyHash)

/-- A transaction of the list carries the pending one. -/
def confirmed (transactions : List RawTransaction) (pending : PendingTransaction) : Bool :=
  transactions.any (carries pending)

/-- The deadline has passed by the time of a state. -/
def expired (state : FullAccountState) (pending : PendingTransaction) : Bool :=
  decide (pending.otherFee ≤ state.syncUtime)

namespace Controller

def saveCache (c : Controller) : Controller := { c with tonCache := App.saveCache c.tonCache c.cache }

def saveIf (changed : Bool) (c : Controller) : Controller := if changed then c.saveCache else c

def setPending (pending : List PendingTransaction) (c : Controller) : Controller :=
  { c with cache := { c.cache with pending } }

/-- The end of `sendGrams` when the query was sent. -/
def onSent (s : Sent) (c : Controller) : Controller :=
  (c.setPending (s.sendingTransaction :: c.cache.pending)).saveCache

/-- `getTransactions` with its answer. -/
def onTransactions (reload : Bool) (transactions : List RawTransaction) (c : Controller) : Controller :=
  let removed := removeAll (confirmed transactions) c.cache.pending
  let c := c.setPending removed.1
  if reload then { c with cache := { c.cache with transactions } }.saveCache else c.saveIf removed.2

/-- `checkPendingTransactionsForFailure`. -/
def checkPendingTransactionsForFailure (state : Option FullAccountState) (c : Controller) : Controller :=
  match state with
  | none => c
  | some state =>
    let removed := removeAll (expired state) c.cache.pending
    (c.setPending removed.1).saveIf removed.2

/-- `broadcastStateResult` of a state; it is saved with the next change. -/
def broadcastStateResult (state : FullAccountState) (c : Controller) : Controller :=
  { c with cache := { c.cache with accountState := some state } }

def clearPendingCache (c : Controller) : Controller := (c.setPending []).saveCache

/-- A new process: the constructor loads the cache. -/
def restart (tonAccountAddress : Option String) (c : Controller) : Controller :=
  { c with cache := loadCache c.tonCache tonAccountAddress }

/-! ## Events -/

inductive Event
  | sent (s : Sent)
  | transactions (reload : Bool) (transactions : List RawTransaction)
  | accountState (state : FullAccountState)
  | checkPending (state : Option FullAccountState)
  | clearPendingCache
  /-- `cleanup`: the wallet is cleared. -/
  | cleanup
  | restart

def handle (tonAccountAddress : Option String) (c : Controller) : Event → Controller
  | .sent s => c.onSent s
  | .transactions reload transactions => c.onTransactions reload transactions
  | .accountState state => c.broadcastStateResult state
  | .checkPending state => c.checkPendingTransactionsForFailure state
  | .clearPendingCache => c.clearPendingCache
  | .cleanup => {}
  | .restart => c.restart tonAccountAddress

/-- Every event can happen in every state. -/
def step (tonAccountAddress : Option String) (c : Controller) (e : Event) : Option Controller :=
  some (c.handle tonAccountAddress e)

/-! ## The rules -/

/-- The payments on their way after an event, by the rules alone: a confirmed one and an expired one are
gone, and only those. -/
def track (live : List PendingTransaction) : Event → List PendingTransaction
  | .sent s => s.sendingTransaction :: live
  | .transactions _ transactions => live.filter fun p => !confirmed transactions p
  | .checkPending (some state) => live.filter fun p => !expired state p
  | .clearPendingCache => []
  | .cleanup => []
  | _ => live

/-- What is saved is what is pending, unless nothing is saved. -/
structure InSync (c : Controller) : Prop where
  saved : c.tonCache = [] ∨
    ∃ account transactions, c.tonCache = saveEntries account transactions c.cache.pending
  unknown : c.cache.accountState = none → c.tonCache = []

/-- A restart finds what is pending saved and without a deadline. -/
def RestartOk (c : Controller) : Event → Prop
  | .restart => c.cache.pending = [] ∨ c.tonCache.contains "hasCache" = true ∧ ∀ p ∈ c.cache.pending, p.otherFee = 0
  | _ => True

/-! ## Saving keeps in sync -/

theorem inSync_saveCache {c : Controller} (h : c.cache.accountState = none → c.tonCache = []) : c.saveCache.InSync := by
  unfold saveCache App.saveCache
  cases ha : c.cache.accountState with
  | none => exact ⟨Or.inl (h ha), fun _ => h ha⟩
  | some account => exact ⟨Or.inr ⟨account, c.cache.transactions, rfl⟩, fun hn => by simp [ha] at hn⟩

@[simp] theorem pending_saveCache (c : Controller) : c.saveCache.cache.pending = c.cache.pending := rfl

theorem pending_saveIf (changed : Bool) (c : Controller) : (c.saveIf changed).cache.pending = c.cache.pending := by
  cases changed <;> rfl

/-- After one of the loops the list is saved if the loop has removed anything. -/
theorem inSync_removeAll {c : Controller} (h : c.InSync) (remove : PendingTransaction → Bool) :
    ((c.setPending (removeAll remove c.cache.pending).1).saveIf (removeAll remove c.cache.pending).2).InSync := by
  rw [removeAll_eq]
  cases hany : c.cache.pending.any remove with
  | true => exact inSync_saveCache h.unknown
  | false =>
    have hsame : c.cache.pending.filter (fun p => !remove p) = c.cache.pending := by
      refine List.filter_eq_self.2 fun p hp => ?_
      simpa using List.any_eq_false.1 hany p hp
    rw [hsame]
    exact h

/-! ## Restarts -/

/-- A new process finds what is pending without its deadlines, if it is saved. -/
theorem restart_of_saved {c : Controller} (tonAccountAddress : Option String) {account : FullAccountState}
    {transactions : List RawTransaction} (h : c.tonCache = saveEntries account transactions c.cache.pending) :
    (c.restart tonAccountAddress).cache = Cache.restored ⟨some account, transactions, c.cache.pending⟩ tonAccountAddress := by
  have hsave : c.tonCache = App.saveCache [] ⟨some account, transactions, c.cache.pending⟩ := h
  rw [restart, hsave]
  exact loadCache_saveCache tonAccountAddress rfl

theorem restart_of_not_saved {c : Controller} (tonAccountAddress : Option String) (h : c.tonCache = []) :
    (c.restart tonAccountAddress).cache = {} := by
  rw [restart, h]
  rfl

theorem contains_hasCache {c : Controller} {account : FullAccountState} {transactions : List RawTransaction}
    (h : c.tonCache = saveEntries account transactions c.cache.pending) : c.tonCache.contains "hasCache" = true := by
  rw [h, Preferences.contains]
  simp [saveEntries]

/-- A restart keeps the list exactly when it finds everything saved and without deadlines. -/
theorem restart_pending_iff {c : Controller} (tonAccountAddress : Option String) (h : c.InSync) :
    (c.restart tonAccountAddress).cache.pending = c.cache.pending ↔ RestartOk c .restart := by
  rcases h.saved with hnil | ⟨account, transactions, hsaved⟩
  · rw [restart_of_not_saved tonAccountAddress hnil, RestartOk, hnil]
    constructor
    · intro he
      exact Or.inl he.symm
    · rintro (he | ⟨hc, -⟩)
      · exact he.symm
      · cases hc
  · have hmap : c.cache.pending.map PendingTransaction.restored = c.cache.pending ↔
        ∀ p ∈ c.cache.pending, p.otherFee = 0 := by
      simp only [map_eq_self_iff, PendingTransaction.restored_eq_iff]
    rw [restart_of_saved tonAccountAddress hsaved, Cache.restored, hmap, RestartOk, contains_hasCache hsaved]
    constructor
    · intro hall
      exact Or.inr ⟨rfl, hall⟩
    · rintro (he | ⟨-, hall⟩)
      · simp [he]
      · exact hall

theorem inSync_restart {c : Controller} (tonAccountAddress : Option String) (h : c.InSync)
    (hok : RestartOk c .restart) : (c.restart tonAccountAddress).InSync := by
  have hpending := (restart_pending_iff tonAccountAddress h).2 hok
  rcases h.saved with hnil | ⟨account, transactions, hsaved⟩
  · exact ⟨Or.inl hnil, fun _ => hnil⟩
  · refine ⟨Or.inr ⟨account, transactions, ?_⟩, fun hn => ?_⟩
    · rw [hpending]
      exact hsaved
    · rw [restart_of_saved tonAccountAddress hsaved] at hn
      cases hn

/-! ## Runs -/

/-- Every event does to the list what the rules say, and what is pending stays saved. -/
theorem step_ok {tonAccountAddress : Option String} {c c' : Controller} {e : Event}
    (hs : c.step tonAccountAddress e = some c') (hok : RestartOk c e) (h : c.InSync) :
    c'.InSync ∧ c'.cache.pending = track c.cache.pending e := by
  cases hs
  cases e with
  | sent s => exact ⟨inSync_saveCache h.unknown, rfl⟩
  | transactions reload transactions =>
    have hsync := inSync_removeAll h (confirmed transactions)
    simp only [handle, onTransactions, track]
    split
    · refine ⟨inSync_saveCache h.unknown, ?_⟩
      rw [removeAll_eq]
      rfl
    · refine ⟨hsync, ?_⟩
      rw [pending_saveIf, removeAll_eq]
      rfl
  | accountState state => exact ⟨⟨h.saved, fun hn => by cases hn⟩, rfl⟩
  | checkPending state =>
    cases state with
    | none => exact ⟨h, rfl⟩
    | some state =>
      refine ⟨inSync_removeAll h (expired state), ?_⟩
      simp only [handle, checkPendingTransactionsForFailure]
      rw [pending_saveIf, removeAll_eq]
      rfl
  | clearPendingCache => exact ⟨inSync_saveCache h.unknown, rfl⟩
  | cleanup => exact ⟨⟨Or.inl rfl, fun _ => rfl⟩, rfl⟩
  | restart => exact ⟨inSync_restart tonAccountAddress h hok, (restart_pending_iff tonAccountAddress h).2 hok⟩

/-- In every run whose restarts find all payments saved and without deadlines, a payment leaves the list
only by the rules, and every answer removes each payment the rules remove. -/
theorem pending_eq_track_of_run {tonAccountAddress : Option String} {es : List Event} {c : Controller}
    (h : Run (Steps.When (step tonAccountAddress) RestartOk) {} es c) : c.cache.pending = es.foldl track [] := by
  have key : c.InSync ∧ c.cache.pending = es.foldl track [] := by
    induction h with
    | nil => exact ⟨⟨Or.inl rfl, fun _ => rfl⟩, rfl⟩
    | snoc _ hs ih =>
      obtain ⟨hsync, hpending⟩ := step_ok hs.2 hs.1 ih.1
      refine ⟨hsync, ?_⟩
      rw [hpending, ih.2, List.foldl_append]
      rfl
  exact key.2

namespace Sample

open App.Sample

def sale : Sent := ⟨10, "wallet", "shop", 5, [104, 105], ⟨100, [9, 9]⟩⟩

/-- A payment of the user, who closes the application after it was confirmed. -/
def confirmedPayment : List Event :=
  [.accountState (account 20), .sent sale,
    .transactions true [⟨30, [], ⟨8, [1]⟩, 1, 0, 1, some ⟨some "", some "wallet", 0, 0, 0, 0, [9, 9], .text []⟩, some []⟩],
    .restart]

/-- A payment of the user, who opens the application again before it was confirmed or has expired. -/
def reopened : List Event := [.accountState (account 20), .sent sale, .restart, .checkPending (some (account 50))]

theorem pending_confirmedPayment :
    ∃ c, Run (Steps.When (step (some "wallet")) RestartOk) {} confirmedPayment c ∧ c.cache.pending = [] := by
  have h : Run (Steps.When (step (some "wallet")) RestartOk) {} confirmedPayment
      ((confirmedPayment.foldl (handle (some "wallet")) {})) :=
    ((((Run.nil.snoc ⟨trivial, rfl⟩).snoc ⟨trivial, rfl⟩).snoc ⟨trivial, rfl⟩).snoc ⟨Or.inl (by decide +kernel), rfl⟩)
  exact ⟨_, h, pending_eq_track_of_run h⟩

/-- The payment valid until 100 is gone at time 50. -/
theorem reopened_loses_payment :
    ¬ ∀ (tonAccountAddress : Option String) (es : List Event) (c : Controller),
      Run (Steps (step tonAccountAddress)) {} es c → c.cache.pending = es.foldl track [] := by
  intro h
  have hlost := h (some "wallet") reopened _ (Run.of_exec rfl)
  revert hlost
  decide +kernel

end Sample

end Controller

end TonWallet.App
