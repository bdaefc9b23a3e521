/-
What `TonController` holds and saves of a wallet, over runs in which the wallet is deleted and another one
is made while requests of the first are not answered yet. All of it is of the current wallet in every run in
which the answers to older requests bring nothing.
-/
import TonWallet.App.TonController

namespace TonWallet.App

open Lib

/-! ## Data of one wallet -/

/-- A cache with data of one wallet only. -/
structure WalletCache.Of (k : WalletCache) (wallet : Nat) : Prop where
  accountState : ∀ a ∈ k.accountState, a.wallet = wallet
  transactions : ∀ t ∈ k.transactions, t.wallet = wallet
  pending : ∀ p ∈ k.pending, p.wallet = wallet

/-- What is held and saved is of one wallet. -/
structure WalletData.Of (d : WalletData) (wallet : Nat) : Prop where
  cache : d.cache.Of wallet
  saved : ∀ k ∈ d.saved, k.Of wallet
  memInputKey : ∀ k ∈ d.memInputKey, k.wallet = wallet

theorem WalletCache.Of.empty (wallet : Nat) : WalletCache.Of {} wallet := by
  constructor <;> rintro _ ⟨⟩

theorem WalletData.Of.empty (wallet : Nat) : WalletData.Of {} wallet := by
  refine ⟨.empty wallet, ?_, ?_⟩ <;> rintro _ ⟨⟩

theorem WalletCache.Of.restored {k : WalletCache} {wallet : Nat} (h : k.Of wallet) (address : Option String) :
    (k.restored address).Of wallet := by
  constructor
  · intro a ha
    obtain ⟨b, hb, rfl⟩ := Option.map_eq_some_iff.1 ha
    exact h.accountState b hb
  · intro t ht
    obtain ⟨u, hu, rfl⟩ := List.mem_map.1 ht
    exact h.transactions u (List.mem_of_mem_take hu)
  · intro p hp
    obtain ⟨q, hq, rfl⟩ := List.mem_map.1 hp
    exact h.pending q hq

namespace TonController

/-- Everything held and saved is of the current wallet. -/
def Current (c : TonController) : Prop := c.data.Of c.wallet

/-- What a function does not touch when it has nothing to do with the data. -/
structure SameData (c d : TonController) : Prop where
  data : d.data = c.data
  wallet : d.wallet = c.wallet

/-- An answer writes to the data: a state, transactions that are reloaded or that confirm a pending payment,
the end of a short poll when a payment has expired, a sent query or a new key. -/
def Brings (c : TonController) : Task → Answer → Prop
  | .getAccountState _, .state _ => True
  | .rawGetTransactions _ reload callback, .transactions transactions =>
    reload = true ∨ (∃ p ∈ c.data.cache.pending, confirmed transactions p.value) ∨ Expires c callback
  | .rawGetTransactions _ _ callback, _ => Expires c callback
  | .sendGrams _ _, .sent _ _ => True
  | .createKey _, .newKey _ => True
  | _, _ => False
where
  /-- A short poll that ends finds an expired payment. -/
  Expires (c : TonController) : Option TransactionsCallback → Prop
    | some (.shortPoll _ (some state)) => ∃ p ∈ c.data.cache.pending, expired state p.value
    | _ => False

/-- The answers to requests of an earlier wallet bring nothing. -/
def AnswerOk (c : TonController) : Event → Prop
  | .answered i answer => ∀ task, c.inFlight[i]? = some task → c.Brings task.value answer → task.wallet = c.wallet
  | _ => True

instance (c : TonController) (callback : Option TransactionsCallback) : Decidable (Brings.Expires c callback) := by
  unfold Brings.Expires
  split <;> infer_instance

instance (c : TonController) (task : Task) (answer : Answer) : Decidable (c.Brings task answer) := by
  unfold Brings
  split <;> infer_instance

instance (c : TonController) : (e : Event) → Decidable (AnswerOk c e)
  | .answered i answer => inferInstanceAs (Decidable (∀ task, c.inFlight[i]? = some task →
      c.Brings task.value answer → task.wallet = c.wallet))
  | .shortPollDue _ | .createWallet _ _ _ | .logout | .saveWalletKeys _ | .setUserPasscode _ _ _
  | .finishSettingUserPasscode | .prepareForPasscodeChange | .getAccountState _ _ | .getTransactions _
  | .checkPending _ | .clearPendingCache | .fillMemInputKey _ | .sendGrams _ _ | .scheduleShortPoll
  | .cancelShortPoll | .settings _ | .restart => inferInstanceAs (Decidable True)

/-- An answer to a request of an earlier wallet leaves the data as it is. -/
def KeepsData (c : TonController) (e : Event) (c' : TonController) : Prop :=
  ∀ i answer task, e = .answered i answer → c.inFlight[i]? = some task → task.wallet ≠ c.wallet → c'.data = c.data

/-! ## Functions that leave the data alone -/

variable {b c d : TonController}

theorem SameData.trans (h : SameData b c) (h' : SameData c d) : SameData b d :=
  ⟨h'.data.trans h.data, h'.wallet.trans h.wallet⟩

theorem sameData_found (f : Option (String × String)) (c : TonController) :
    SameData c (f.elim c fun f => c.learnAddress f) := by
  cases f <;> exact ⟨rfl, rfl⟩

theorem sameData_getAccountState (isImport : Bool) (callback : StateCallback) (address : Option String)
    (c : TonController) : SameData c (c.getAccountState isImport callback address) := by
  unfold getAccountState
  split
  · exact ⟨rfl, rfl⟩
  · dsimp only
    split
    · split
      · exact ⟨rfl, rfl⟩
      · exact ⟨(sameData_found _ _).data, (sameData_found _ _).wallet⟩
    · exact ⟨rfl, rfl⟩

theorem sameData_preloadWallet (isImport : Bool) (address : Option String) (c : TonController) :
    SameData c (c.preloadWallet isImport address) := by
  unfold preloadWallet
  split
  · exact ⟨rfl, rfl⟩
  · refine SameData.trans ?_ (sameData_getAccountState _ _ _ _)
    exact ⟨rfl, rfl⟩

theorem sameData_runShortPolling (r : Nat) (c : TonController) : SameData c (c.runShortPolling r) := by
  unfold runShortPolling
  split
  · exact ⟨rfl, rfl⟩
  · refine SameData.trans ?_ (sameData_getAccountState _ _ _ _)
    exact ⟨rfl, rfl⟩

theorem sameData_scheduleShortPoll (c : TonController) : SameData c c.scheduleShortPoll := by
  unfold scheduleShortPoll
  split <;> exact ⟨rfl, rfl⟩

theorem Current.same (h : c.Current) (hs : SameData c d) : d.Current := by
  unfold Current
  rw [hs.data, hs.wallet]
  exact h

/-! ## Functions that keep the data of one wallet -/

theorem Current.saveCache (h : c.Current) : c.saveCache.Current := by
  unfold TonController.saveCache
  split
  · exact h
  · refine ⟨h.cache, ?_, h.memInputKey⟩
    rintro k ⟨⟩
    exact h.cache

theorem Current.saveIf (h : c.Current) (changed : Bool) : (c.saveIf changed).Current := by
  unfold TonController.saveIf
  split
  · exact h.saveCache
  · exact h

theorem Current.setPending (h : c.Current) {pending : List (OfWallet PendingTransaction)}
    (hp : ∀ p ∈ pending, p.wallet = c.wallet) : (c.setPending pending).Current :=
  ⟨⟨h.cache.accountState, h.cache.transactions, hp⟩, h.saved, h.memInputKey⟩

theorem Current.setMemInputKey (h : c.Current) {key : Option (OfWallet InputKey)}
    (hk : ∀ k ∈ key, k.wallet = c.wallet) : (c.setMemInputKey key).Current :=
  ⟨h.cache, h.saved, hk⟩

/-- Removing pending payments. -/
theorem Current.removePending (h : c.Current) (remove : OfWallet PendingTransaction → Bool) :
    (c.setPending (removeAll remove c.data.cache.pending).1).Current := by
  refine h.setPending fun p hp => ?_
  rw [removeAll_eq] at hp
  exact h.cache.pending p (List.mem_filter.1 hp).1

theorem Current.checkPending (h : c.Current) (state : Option FullAccountState) :
    (c.checkPendingTransactionsForFailure state).Current := by
  unfold checkPendingTransactionsForFailure
  split
  · exact h
  · exact (h.removePending _).saveIf _

theorem Current.finishShortPoll (h : c.Current) (state : Option FullAccountState) :
    (c.finishShortPoll state).Current := by
  unfold TonController.finishShortPoll
  dsimp only
  have h' := Current.checkPending (h.same (d := { c with polling :=
    { c.polling with shortPollRunnable := none, shortPollingInProgress := false } }) ⟨rfl, rfl⟩) state
  split
  · exact h'
  · exact h'.same (sameData_scheduleShortPoll _)

theorem Current.stateCallback (h : c.Current) (state : Option FullAccountState) (callback : StateCallback) :
    (c.runStateCallback state callback).Current := by
  cases callback with
  | preload => cases state <;> exact h
  | shortPoll r oldState =>
    simp only [runStateCallback]
    split
    · exact h
    · exact h.finishShortPoll state
  | ui => exact h

theorem Current.stateCallbacks (callbacks : List StateCallback) (state : Option FullAccountState) (h : c.Current) :
    (callbacks.foldl (runStateCallback state) c).Current := by
  induction callbacks generalizing c with
  | nil => exact h
  | cons callback callbacks ih => exact ih (h.stateCallback state callback)

theorem Current.transactions (h : c.Current) (reload : Bool) (transactions : List RawTransaction) :
    (c.onTransactions reload c.wallet transactions).Current := by
  have hremove := h.removePending fun p => confirmed transactions p.value
  unfold onTransactions
  dsimp only
  split
  · refine Current.saveCache ⟨⟨hremove.cache.accountState, ?_, hremove.cache.pending⟩, h.saved, h.memInputKey⟩
    intro t ht
    obtain ⟨u, _, rfl⟩ := List.mem_map.1 ht
    rfl
  · refine Current.saveIf ?_ _
    exact hremove

theorem Current.sent (h : c.Current) (key : InputKey) (s : Sent) : (c.onSent c.wallet key s).Current := by
  unfold onSent
  refine Current.saveCache (Current.setPending (h.setMemInputKey ?_) ?_)
  · rintro _ ⟨⟩
    rfl
  · intro p hp
    rcases List.mem_cons.1 hp with rfl | hp
    · rfl
    · exact h.cache.pending p hp

theorem Current.newKey (h : c.Current) (isImport : Bool) (k : NewKey) :
    (c.onFinishWalletCreate isImport c.wallet k).Current := by
  have hkey : (c.setMemInputKey (some ⟨c.wallet, ⟨some k.publicKey, k.secret, k.password⟩⟩)).Current :=
    h.setMemInputKey (by rintro _ ⟨⟩; rfl)
  have hpre : ∀ d : TonController, d.Current → (d.preloadWallet isImport k.address).Current :=
    fun d hd => hd.same (sameData_preloadWallet isImport k.address d)
  unfold onFinishWalletCreate
  dsimp only
  split
  · exact hpre _ hkey
  · exact hpre _ hkey

/-- The answers to requests of the current wallet. -/
theorem Current.answer (h : c.Current) (task : Task) (answer : Answer) :
    (c.onAnswer c.wallet task answer).Current := by
  have hbroadcast : ∀ state : Option (OfWallet FullAccountState), (∀ a ∈ state, a.wallet = c.wallet) →
      (c.broadcastStateResult state).Current := by
    intro state hstate
    refine Current.stateCallbacks _ _ ⟨⟨?_, h.cache.transactions, h.cache.pending⟩, h.saved, h.memInputKey⟩
    intro a ha
    cases state with
    | none => exact h.cache.accountState a ha
    | some b => exact hstate a ha
  have hcallback : ∀ (d : TonController) (callback : Option TransactionsCallback), d.Current →
      (d.runTransactionsCallback callback).Current := by
    intro d callback hd
    rcases callback with _ | _ | ⟨r, state⟩
    · exact hd
    · exact hd
    · exact hd.finishShortPoll state
  cases task with
  | guessAccount publicKey =>
    simp only [onAnswer]
    split
    · exact h
    · exact hbroadcast none (by rintro _ ⟨⟩)
  | getAccountState address =>
    cases answer with
    | state state => exact hbroadcast _ (by rintro _ ⟨⟩; rfl)
    | _ => exact hbroadcast none (by rintro _ ⟨⟩)
  | rawGetTransactions address reload callback =>
    cases answer with
    | transactions ts => exact hcallback _ callback (h.transactions reload ts)
    | _ => exact hcallback _ callback h
  | sendGrams key payment =>
    cases answer with
    | sent now queryInfo => exact h.sent key _
    | _ => exact h
  | createKey isImport =>
    cases answer with
    | newKey key => exact h.newKey isImport key
    | _ => exact h

/-! ## Answers that bring nothing -/

theorem sameData_checkPending (state : FullAccountState) (c : TonController)
    (hnone : ∀ p ∈ c.data.cache.pending, expired state p.value = false) :
    SameData c (c.checkPendingTransactionsForFailure (some state)) := by
  have hkeep : (c.data.cache.pending.filter fun p => !expired state p.value) = c.data.cache.pending :=
    List.filter_eq_self.2 fun p hp => by rw [hnone p hp]; rfl
  have hany : (c.data.cache.pending.any fun p => expired state p.value) = false :=
    List.any_eq_false.2 fun p hp => by simp [hnone p hp]
  simp only [checkPendingTransactionsForFailure, removeAll_eq, hkeep, hany]
  exact ⟨rfl, rfl⟩

theorem sameData_finishShortPoll (state : Option FullAccountState) (c : TonController)
    (hnone : ∀ s, state = some s → ∀ p ∈ c.data.cache.pending, expired s p.value = false) :
    SameData c (c.finishShortPoll state) := by
  unfold finishShortPoll
  dsimp only
  generalize hd : ({ c with polling :=
    { c.polling with shortPollRunnable := none, shortPollingInProgress := false } } : TonController) = d
  have hcd : SameData c d := by
    rw [← hd]
    exact ⟨rfl, rfl⟩
  have h' : SameData c (d.checkPendingTransactionsForFailure state) := by
    cases state with
    | none => exact hcd
    | some s => exact hcd.trans (sameData_checkPending s d (by rw [hcd.data]; exact hnone s rfl))
  split
  · exact h'
  · exact h'.trans (sameData_scheduleShortPoll _)

/-- The callbacks that are told of a failure. -/
theorem sameData_stateCallbacks (callbacks : List StateCallback) (c : TonController) :
    SameData c (callbacks.foldl (runStateCallback none) c) := by
  induction callbacks generalizing c with
  | nil => exact ⟨rfl, rfl⟩
  | cons callback callbacks ih =>
    refine SameData.trans ?_ (ih _)
    cases callback with
    | preload => exact ⟨rfl, rfl⟩
    | shortPoll r oldState =>
      have hno : needUpdateTransactions oldState none = false := by cases oldState <;> rfl
      simp only [runStateCallback, hno, Bool.false_eq_true, if_false]
      exact sameData_finishShortPoll none c (by rintro _ ⟨⟩)
    | ui => exact ⟨rfl, rfl⟩

theorem sameData_broadcast (c : TonController) : SameData c (c.broadcastStateResult none) :=
  SameData.trans (c := { c with stateCallbacks := [] }) ⟨rfl, rfl⟩ (sameData_stateCallbacks _ _)

theorem sameData_transactionsCallback (callback : Option TransactionsCallback) (c : TonController)
    (h : ¬ Brings.Expires c callback) : SameData c (c.runTransactionsCallback callback) := by
  rcases callback with _ | _ | ⟨r, state⟩
  · exact ⟨rfl, rfl⟩
  · exact ⟨rfl, rfl⟩
  · refine sameData_finishShortPoll state c ?_
    rintro s rfl p hp
    by_contra he
    exact h ⟨p, hp, by simpa using he⟩

/-- Transactions that are not reloaded and confirm nothing. -/
theorem sameData_onTransactions (wallet : Nat) (transactions : List RawTransaction) (c : TonController)
    (hnone : ¬ ∃ p ∈ c.data.cache.pending, confirmed transactions p.value) :
    SameData c (c.onTransactions false wallet transactions) := by
  have hno : ∀ p ∈ c.data.cache.pending, confirmed transactions p.value = false := by
    intro p hp
    by_contra he
    exact hnone ⟨p, hp, by simpa using he⟩
  have hkeep : (c.data.cache.pending.filter fun p => !confirmed transactions p.value) = c.data.cache.pending :=
    List.filter_eq_self.2 fun p hp => by rw [hno p hp]; rfl
  have hany : (c.data.cache.pending.any fun p => confirmed transactions p.value) = false :=
    List.any_eq_false.2 fun p hp => by simp [hno p hp]
  simp only [onTransactions, removeAll_eq, hkeep, hany]
  exact ⟨rfl, rfl⟩

theorem sameData_onAnswer (wallet : Nat) (task : Task) (answer : Answer) (h : ¬ c.Brings task answer) :
    SameData c (c.onAnswer wallet task answer) := by
  cases task with
  | guessAccount publicKey =>
    simp only [onAnswer]
    split
    · exact ⟨rfl, rfl⟩
    · exact sameData_broadcast c
  | getAccountState address =>
    cases answer with
    | state state => exact absurd trivial h
    | _ => exact sameData_broadcast c
  | rawGetTransactions address reload callback =>
    cases answer with
    | transactions ts =>
      simp only [Brings, not_or] at h
      obtain ⟨hreload, hconfirmed, hexpires⟩ := h
      cases reload with
      | true => exact absurd rfl hreload
      | false =>
        have hs := sameData_onTransactions wallet ts c hconfirmed
        refine hs.trans (sameData_transactionsCallback callback _ ?_)
        unfold Brings.Expires
        rw [hs.data]
        exact hexpires
    | _ => exact sameData_transactionsCallback callback c h
  | sendGrams key payment =>
    cases answer with
    | sent now queryInfo => exact absurd trivial h
    | _ => exact ⟨rfl, rfl⟩
  | createKey isImport =>
    cases answer with
    | newKey key => exact absurd trivial h
    | _ => exact ⟨rfl, rfl⟩

/-! ## Every run -/

theorem Current.step {c' : TonController} {e : Event} (h : c.Current) (hok : AnswerOk c e) (hs : c.step e = some c') :
    c'.Current := by
  cases e with
  | answered i answer =>
    obtain ⟨task, hi, hs⟩ := Option.bind_eq_some_iff.1 hs
    cases hs
    by_cases hb : c.Brings task.value answer
    · rw [hok task hi hb]
      exact Current.answer (c := { c with inFlight := c.inFlight.eraseIdx i }) h task.value answer
    · have hs := sameData_onAnswer (c := { c with inFlight := c.inFlight.eraseIdx i }) task.wallet _ _ hb
      exact h.same ⟨hs.data, hs.wallet⟩
  | shortPollDue r =>
    simp only [TonController.step] at hs
    split at hs
    · cases hs
      refine Current.same ?_ (sameData_runShortPolling r _)
      exact h
    · cases hs
  | createWallet isImport keyName isKeyCreated =>
    cases hs
    unfold createWallet
    dsimp only
    split <;> exact WalletData.Of.empty _
  | logout =>
    cases hs
    exact WalletData.Of.empty _
  | getAccountState isImport address =>
    cases hs
    exact h.same (sameData_getAccountState _ _ _ c)
  | scheduleShortPoll =>
    cases hs
    exact h.same (sameData_scheduleShortPoll c)
  | checkPending state =>
    cases hs
    exact h.checkPending state
  | clearPendingCache =>
    cases hs
    exact (h.setPending (by rintro _ ⟨⟩)).saveCache
  | fillMemInputKey decrypted =>
    cases hs
    refine h.setMemInputKey ?_
    intro k hk
    obtain ⟨_, _, rfl⟩ := Option.map_eq_some_iff.1 hk
    rfl
  | setUserPasscode passcodeType salt encrypted =>
    simp only [TonController.step, setUserPasscode] at hs
    split at hs <;> cases hs
    exact h
  | prepareForPasscodeChange =>
    simp only [TonController.step, prepareForPasscodeChange] at hs
    split at hs <;> cases hs
    exact h
  | settings e =>
    simp only [TonController.step] at hs
    split at hs
    · obtain ⟨_, _, rfl⟩ := Option.map_eq_some_iff.1 hs
      exact h
    · cases hs
  | restart =>
    obtain ⟨settings, _, rfl⟩ := Option.map_eq_some_iff.1 hs
    refine ⟨?_, h.saved, by rintro _ ⟨⟩⟩
    cases hsaved : c.data.saved with
    | none => exact .empty _
    | some k => exact (h.saved k hsaved).restored _
  | getTransactions reload | sendGrams key payment | saveWalletKeys finish | finishSettingUserPasscode | cancelShortPoll =>
    cases hs
    exact h

theorem keepsData {c' : TonController} {e : Event} (hok : AnswerOk c e) (hs : c.step e = some c') :
    c.KeepsData e c' := by
  rintro i answer task rfl hi hw
  obtain ⟨task', hi', hs⟩ := Option.bind_eq_some_iff.1 hs
  cases hs
  cases hi.symm.trans hi'
  refine (sameData_onAnswer (c := { c with inFlight := c.inFlight.eraseIdx i }) _ _ _ fun hb => ?_).data
  exact hw (hok task hi hb)

/-- Everything held and saved is of the current wallet, and answers to older requests change nothing: in
every run in which the answers to older requests bring nothing. -/
theorem current_of_run {es : List Event} {c : TonController} (h : Run (Steps.When step AnswerOk) {} es c) :
    c.Current ∧ ∀ e c', Steps.When step AnswerOk c e c' → c.KeepsData e c' := by
  refine ⟨h.inv (I := Current) (WalletData.Of.empty 0) fun _ _ _ hi hr => hi.step hr.1 hr.2, ?_⟩
  intro e c' hr
  exact keepsData hr.1 hr.2

namespace Sample

/-- A payment is sent, the wallet deleted, and another one made; the state of the first was asked for and
comes as an error. -/
def switched : List Event :=
  sent ++ [.getAccountState false none, .logout, .answered 0 .error, .createWallet false "walletKey2" true,
    .answered 0 (.newKey ⟨"key2", [3], [4], some "address2", true, some "data2"⟩), .answered 0 (.state account)]

/-- The state after it. -/
def afterSwitched : TonController := (exec (fun c e => if AnswerOk c e then c.step e else none) {} switched).getD {}

theorem current_switched :
    Run (Steps.When step AnswerOk) {} switched afterSwitched ∧ afterSwitched.Current ∧
      ∀ e c', Steps.When step AnswerOk afterSwitched e c' → afterSwitched.KeepsData e c' := by
  have hrun : Run (Steps.When step AnswerOk) {} switched afterSwitched :=
    Run.of_exec_when (Option.getD_of_ne_none (by decide +kernel) _).symm
  exact ⟨hrun, current_of_run hrun⟩

/-- The state of a deleted wallet comes. -/
def late : List Event := created ++ [.getAccountState false none, .logout, .answered 0 (.state account)]

/-- It is kept as the state of the wallet there is. -/
theorem not_current_late :
    ¬ ∀ (es : List Event) (c : TonController), Run (Steps step) {} es c →
      c.Current ∧ ∀ e c', Steps step c e c' → c.KeepsData e c' := by
  intro h
  have hrun : Run (Steps step) {} late ((exec step {} late).getD {}) :=
    Run.of_exec (Option.getD_of_ne_none (by decide +kernel) _).symm
  have hstate := (h _ _ hrun).1.cache.accountState
  revert hstate
  decide +kernel

end Sample

end TonController

end TonWallet.App
