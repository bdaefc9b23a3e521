/-
The short polling of `TonController`: a delayed runnable starts a poll, whose two answers may come at any
time, and the end of a poll schedules the next one while payments are pending. At most one poll is
scheduled or running in every run whose polls find payments when they start, and in which none is scheduled
while a cancelled one still waits for its answer.
-/
import TonWallet.App.TonController

namespace TonWallet.App

open Lib

/-! ## Polls -/

/-- The poll a callback belongs to. -/
def StateCallback.poll : StateCallback → Option Nat
  | .shortPoll r _ => some r
  | _ => none

/-- The poll a request belongs to. -/
def Task.poll : Task → Option Nat
  | .rawGetTransactions _ _ (some (.shortPoll r _)) => some r
  | _ => none

namespace TonController

/-- The polls in progress, which wait for a state or for transactions. -/
def polls (c : TonController) : List Nat :=
  c.stateCallbacks.filterMap StateCallback.poll ++ c.inFlight.filterMap fun t => t.value.poll

/-- At most one poll is scheduled or running; the runnable is set only while it is queued or its poll is in
progress, and scheduling a poll when there is none queues one. -/
structure OnePoll (c : TonController) : Prop where
  atMostOne : (c.polling.delayed ++ c.polls).length ≤ 1
  runnable : ∀ r, c.polling.shortPollRunnable = some r → r ∈ c.polling.delayed ∨ r ∈ c.polls
  schedules : c.polling.delayed = [] → c.polls = [] → c.scheduleShortPoll.polling.delayed ≠ []

/-- What the fields say while nothing is polled, while a poll is scheduled and while one is running. A
running poll may have been cancelled. -/
inductive PollState (p : ShortPolling) (polls : List Nat) : Prop
  | idle (delayed : p.delayed = []) (polls : polls = []) (runnable : p.shortPollRunnable = none)
      (inProgress : p.shortPollingInProgress = false)
  | scheduled (r : Nat) (delayed : p.delayed = [r]) (polls : polls = []) (runnable : p.shortPollRunnable = some r)
      (inProgress : p.shortPollingInProgress = false)
  | running (r : Nat) (delayed : p.delayed = []) (polls : polls = [r])
      (runnable : p.shortPollRunnable = none ∨ p.shortPollRunnable = some r)

/-- A poll that starts finds payments, and none is scheduled while a cancelled one waits for its answer. -/
def PollOk (c : TonController) : Event → Prop
  | .shortPollDue _ => c.data.cache.pending ≠ []
  | .scheduleShortPoll => c.polling.shortPollRunnable = none → c.polls = []
  | _ => True

instance (c : TonController) (e : Event) : Decidable (PollOk c e) := by
  unfold PollOk
  cases e <;> infer_instance

theorem PollState.onePoll {c : TonController} (h : PollState c.polling c.polls) : c.OnePoll := by
  cases h with
  | idle hd hp hr _ =>
    refine ⟨?_, fun r hs => ?_, fun _ _ => ?_⟩
    · simp [hd, hp]
    · rw [hr] at hs
      cases hs
    · simp [scheduleShortPoll, hr]
  | scheduled r hd hp hr _ =>
    refine ⟨?_, fun s hs => ?_, fun hn _ => ?_⟩
    · simp [hd, hp]
    · rw [hr] at hs
      cases hs
      exact .inl (by simp [hd])
    · rw [hd] at hn
      cases hn
  | running r hd hp hr =>
    refine ⟨?_, fun s hs => ?_, fun _ hn => ?_⟩
    · simp [hd, hp]
    · rcases hr with hr | hr
      · rw [hr] at hs
        cases hs
      · rw [hr] at hs
        cases hs
        exact .inr (by simp [hp])
    · rw [hp] at hn
      cases hn

theorem PollState.perm {p : ShortPolling} {ps qs : List Nat} (h : PollState p ps) (hperm : ps.Perm qs) : PollState p qs := by
  cases h with
  | idle hd hp hr hi =>
    rw [hp] at hperm
    exact .idle hd hperm.symm.eq_nil hr hi
  | scheduled r hd hp hr hi =>
    rw [hp] at hperm
    exact .scheduled r hd hperm.symm.eq_nil hr hi
  | running r hd hp hr =>
    rw [hp] at hperm
    exact .running r hd (List.singleton_perm.1 hperm).symm hr

/-! ## What the functions do to the polls -/

/-- What a function does not touch when it has nothing to do with the polling. -/
structure SamePolls (c d : TonController) : Prop where
  polling : d.polling = c.polling
  polls : d.polls = c.polls

theorem SamePolls.refl (c : TonController) : SamePolls c c := ⟨rfl, rfl⟩

theorem SamePolls.trans {a b c : TonController} (h : SamePolls a b) (h' : SamePolls b c) : SamePolls a c :=
  ⟨h'.polling.trans h.polling, h'.polls.trans h.polls⟩

theorem SameButData.samePolls {c d : TonController} (h : SameButData c d) : SamePolls c d := by
  refine ⟨h.polling, ?_⟩
  unfold polls
  rw [h.stateCallbacks, h.inFlight]

theorem samePolls_found (f : Option (String × String)) (c : TonController) :
    SamePolls c (f.elim c fun f => c.learnAddress f) := by
  cases f <;> exact ⟨rfl, rfl⟩

/-- A request adds the poll it belongs to. -/
theorem polls_request (task : Task) (c : TonController) : (c.request task).polls = c.polls ++ task.poll.toList := by
  cases h : task.poll <;> simp [polls, request, h]

@[simp] theorem polling_request (task : Task) (c : TonController) : (c.request task).polling = c.polling := rfl

theorem samePolls_request {task : Task} (h : task.poll = none) (c : TonController) : SamePolls c (c.request task) := by
  refine ⟨rfl, ?_⟩
  rw [polls_request, h]
  exact List.append_nil _

theorem samePolls_getAccountStateInternal (c : TonController) : SamePolls c c.getAccountStateInternal :=
  samePolls_request rfl c

theorem polling_getAccountState (isImport : Bool) (callback : StateCallback) (address : Option String)
    (c : TonController) : (c.getAccountState isImport callback address).polling = c.polling := by
  unfold getAccountState
  split
  · rfl
  · dsimp only
    split
    · split
      · rfl
      · exact ((samePolls_found _ _).trans (samePolls_getAccountStateInternal _)).polling
    · rfl

/-- Asking for the state adds the poll of its callback. -/
theorem polls_getAccountState (isImport : Bool) (callback : StateCallback) (address : Option String)
    (c : TonController) :
    (callback.poll.toList ++ c.polls).Perm (c.getAccountState isImport callback address).polls := by
  unfold getAccountState
  split
  · have : ({ c with stateCallbacks := c.stateCallbacks ++ [callback] } : TonController).polls =
        c.stateCallbacks.filterMap StateCallback.poll ++
          (callback.poll.toList ++ c.inFlight.filterMap fun t => t.value.poll) := by
      cases h : callback.poll <;> simp [polls, h]
    rw [this]
    exact List.perm_append_comm_assoc _ _ _
  · next hn =>
    simp only [ne_eq, Decidable.not_not] at hn
    -- every branch only sends a request that belongs to no poll
    have hcb : (callback.poll.toList ++ c.polls) = ({ c with stateCallbacks := [callback] } : TonController).polls := by
      cases h : callback.poll <;> simp [polls, h, hn]
    rw [hcb]
    dsimp only
    split
    · split
      · rw [(samePolls_request rfl _).polls]
      · rw [((samePolls_found _ _).trans (samePolls_getAccountStateInternal _)).polls]
    · rw [(samePolls_getAccountStateInternal _).polls]

theorem polls_scheduleShortPoll (c : TonController) : c.scheduleShortPoll.polls = c.polls := by
  unfold scheduleShortPoll
  split <;> rfl

/-! ## What keeps the state of the polling -/

variable {c d : TonController} {ps : List Nat}

theorem PollState.same (h : PollState c.polling c.polls) (hs : SamePolls c d) : PollState d.polling d.polls := by
  rw [hs.polling, hs.polls]
  exact h

theorem PollState.schedule (h : PollState c.polling ps) (hps : c.polling.shortPollRunnable = none → ps = []) :
    PollState c.scheduleShortPoll.polling ps := by
  unfold scheduleShortPoll
  split
  · exact h
  · next hr =>
    cases h with
    | idle hd hp _ hi => exact .scheduled c.polling.runnables (by simp [hd]) hp rfl hi
    | scheduled r _ _ hs _ =>
      rw [hr] at hs
      cases hs
    | running r _ hp _ =>
      rw [hps hr] at hp
      cases hp

/-- A cancelled poll that waits for an answer goes on. -/
theorem PollState.cancel (h : PollState c.polling ps) : PollState c.cancelShortPoll.polling ps := by
  unfold cancelShortPoll
  cases h with
  | idle hd hp hr _ => exact .idle (by simp [hr, hd]) hp rfl rfl
  | scheduled r hd hp hr _ => exact .idle (by simp [hr, hd]) hp rfl rfl
  | running r hd hp hr =>
    refine .running r ?_ hp (.inl rfl)
    rcases hr with hr | hr <;> simp [hr, hd]

/-- The poll that has ended was the only one. -/
theorem PollState.finish {r : Nat} (h : PollState c.polling (r :: ps)) (state : Option FullAccountState) :
    PollState (c.finishShortPoll state).polling ps := by
  have hidle : c.polling.delayed = [] ∧ ps = [] := by
    cases h with
    | idle _ hp => cases hp
    | scheduled _ _ hp => cases hp
    | running _ hd hp =>
      cases hp
      exact ⟨hd, rfl⟩
  obtain ⟨hd, rfl⟩ := hidle
  unfold finishShortPoll
  dsimp only
  generalize hc' : ({ c with polling :=
    { c.polling with shortPollRunnable := none, shortPollingInProgress := false } } : TonController) = c'
  have h' : PollState (c'.checkPendingTransactionsForFailure state).polling [] := by
    rw [(sameButData_checkPending state c').polling, ← hc']
    exact .idle hd rfl rfl rfl
  split
  · exact h'
  · exact h'.schedule fun _ => rfl

theorem polls_finishShortPoll (state : Option FullAccountState) (c : TonController) :
    (c.finishShortPoll state).polls = c.polls := by
  unfold finishShortPoll
  dsimp only
  split
  · exact (sameButData_checkPending _ _).samePolls.polls
  · rw [polls_scheduleShortPoll, (sameButData_checkPending _ _).samePolls.polls]
    rfl

/-! ## Answers -/

/-- A callback has run: its poll has ended or asked for transactions. -/
theorem PollState.stateCallback {cb : StateCallback} (h : PollState c.polling (cb.poll.toList ++ (ps ++ c.polls)))
    (state : Option FullAccountState) :
    PollState (c.runStateCallback state cb).polling (ps ++ (c.runStateCallback state cb).polls) := by
  cases cb with
  | preload =>
    cases state with
    | none => exact h
    | some _ =>
      simp only [runStateCallback, getTransactions, polls_request, polling_request]
      simpa [Task.poll, StateCallback.poll] using h
  | shortPoll r oldState =>
    simp only [runStateCallback]
    split
    · simp only [getTransactions, polls_request]
      refine PollState.perm (p := c.polling) h ?_
      simp only [StateCallback.poll, Task.poll, Option.toList]
      rw [← List.append_assoc ps]
      exact List.perm_append_comm
    · rw [polls_finishShortPoll]
      exact PollState.finish h state
  | ui => exact h

theorem PollState.stateCallbacks (cbs : List StateCallback) (state : Option FullAccountState) (c : TonController)
    (h : PollState c.polling (cbs.filterMap StateCallback.poll ++ c.polls)) :
    PollState (cbs.foldl (runStateCallback state) c).polling (cbs.foldl (runStateCallback state) c).polls := by
  induction cbs generalizing c with
  | nil => exact h
  | cons cb cbs ih =>
    refine ih _ (PollState.stateCallback ?_ state)
    cases hcb : cb.poll <;> simpa [hcb] using h

theorem PollState.broadcast (h : PollState c.polling c.polls) (state : Option (OfWallet FullAccountState)) :
    PollState (c.broadcastStateResult state).polling (c.broadcastStateResult state).polls :=
  PollState.stateCallbacks _ _ _ h

theorem PollState.transactionsCallback {callback : Option TransactionsCallback} {a : Option String} {b : Bool}
    (h : PollState c.polling ((Task.rawGetTransactions a b callback).poll.toList ++ c.polls)) :
    PollState (c.runTransactionsCallback callback).polling (c.runTransactionsCallback callback).polls := by
  rcases callback with _ | _ | ⟨r, state⟩
  · exact h
  · exact h
  · simp only [runTransactionsCallback]
    rw [polls_finishShortPoll]
    exact PollState.finish h state

theorem PollState.asked {callback : StateCallback} (h : PollState c.polling (callback.poll.toList ++ c.polls)) (isImport : Bool)
    (address : Option String) : PollState (c.getAccountState isImport callback address).polling
      (c.getAccountState isImport callback address).polls := by
  rw [polling_getAccountState]
  exact h.perm (polls_getAccountState isImport callback address c)

theorem PollState.newKey (h : PollState c.polling c.polls) (isImport : Bool) (wallet : Nat) (k : NewKey) :
    PollState (c.onFinishWalletCreate isImport wallet k).polling (c.onFinishWalletCreate isImport wallet k).polls := by
  have hp : ∀ d : TonController, PollState d.polling d.polls →
      PollState (d.preloadWallet isImport k.address).polling (d.preloadWallet isImport k.address).polls := by
    intro d hd
    unfold preloadWallet
    split
    · exact hd
    · refine PollState.asked ?_ _ _
      exact hd
  unfold onFinishWalletCreate
  dsimp only
  split
  · exact hp _ h
  · exact hp _ h

/-- An answer ends the poll of its request, or the poll goes on. -/
theorem PollState.answer {task : Task} (h : PollState c.polling (task.poll.toList ++ c.polls)) (wallet : Nat)
    (answer : Answer) : PollState (c.onAnswer wallet task answer).polling (c.onAnswer wallet task answer).polls := by
  cases task with
  | guessAccount publicKey =>
    unfold onAnswer
    dsimp only
    split
    · refine PollState.same (c := c) h ⟨rfl, ?_⟩
      simp [polls, learnAddress, Task.poll]
    · exact PollState.broadcast h none
  | getAccountState address => cases answer <;> exact PollState.broadcast h _
  | rawGetTransactions address reload callback =>
    cases answer with
    | transactions ts =>
      have hs := (sameButData_onTransactions reload wallet ts c).samePolls
      refine PollState.transactionsCallback (a := address) (b := reload) ?_
      rw [hs.polling, hs.polls]
      exact h
    | _ => exact PollState.transactionsCallback h
  | sendGrams key payment =>
    cases answer with
    | sent now queryInfo => exact PollState.same (c := c) h (sameButData_onSent _ _ _ _).samePolls
    | _ => exact h
  | createKey isImport =>
    cases answer with
    | newKey key => exact PollState.newKey h isImport wallet key
    | _ => exact h

/-- The polls of the requests, with that of the answered one first. -/
theorem polls_answered {i : Nat} {task : OfWallet Task} (hi : c.inFlight[i]? = some task) :
    (c.polls).Perm (task.value.poll.toList ++ ({ c with inFlight := c.inFlight.eraseIdx i } : TonController).polls) := by
  obtain ⟨hlt, rfl⟩ := List.getElem?_eq_some_iff.1 hi
  have hperm := (List.perm_cons_erase (List.getElem_mem hlt)).trans ((List.erase_getElem hlt).cons _)
  refine ((List.Perm.refl _).append (hperm.filterMap fun t => t.value.poll)).trans ?_
  cases h : (c.inFlight[i]).value.poll with
  | none => simp [polls, h]
  | some r =>
    simp only [List.filterMap_cons, h]
    exact List.perm_middle

/-! ## Every run -/

theorem PollState.start {r : Nat} (h : PollState c.polling c.polls) (hr : r ∈ c.polling.delayed)
    (hp : c.data.cache.pending ≠ []) :
    PollState ({ c with polling := { c.polling with delayed := c.polling.delayed.erase r } }.runShortPolling r).polling
      ({ c with polling := { c.polling with delayed := c.polling.delayed.erase r } }.runShortPolling r).polls := by
  cases h with
  | idle hd =>
    rw [hd] at hr
    cases hr
  | running _ hd =>
    rw [hd] at hr
    cases hr
  | scheduled s hd hps hs hi =>
    obtain rfl : r = s := by
      rw [hd] at hr
      exact List.mem_singleton.1 hr
    unfold runShortPolling
    rw [if_neg (by simp [hi, hp])]
    refine PollState.asked ?_ _ _
    exact .running r (by simp [hd]) (congrArg (r :: ·) hps) (.inr hs)

theorem PollState.cleanup (h : PollState c.polling c.polls) : PollState c.cleanup.polling c.cleanup.polls :=
  PollState.cancel h

theorem PollState.saveWalletKeys (h : PollState c.polling c.polls) (finish : Bool) :
    PollState (c.saveWalletKeys finish).polling (c.saveWalletKeys finish).polls := h

theorem PollState.step {c' : TonController} {e : Event} (h : PollState c.polling c.polls) (hok : PollOk c e)
    (hs : c.step e = some c') : PollState c'.polling c'.polls := by
  cases e with
  | answered i answer =>
    obtain ⟨task, hi, hs⟩ := Option.bind_eq_some_iff.1 hs
    cases hs
    exact PollState.answer (c := { c with inFlight := c.inFlight.eraseIdx i }) (h.perm (polls_answered hi)) _ _
  | shortPollDue r =>
    simp only [TonController.step] at hs
    split at hs
    · next hr =>
      cases hs
      exact h.start hr hok
    · cases hs
  | scheduleShortPoll =>
    cases hs
    rw [polls_scheduleShortPoll]
    exact h.schedule hok
  | cancelShortPoll =>
    cases hs
    exact PollState.cancel h
  | createWallet isImport keyName isKeyCreated =>
    cases hs
    unfold createWallet
    dsimp only
    split
    · refine PollState.same (PollState.same h.cleanup ?_) (samePolls_request rfl _)
      exact ⟨rfl, rfl⟩
    · exact h.cleanup
  | logout =>
    cases hs
    exact h.cleanup
  | getAccountState isImport address =>
    cases hs
    refine PollState.asked ?_ _ _
    exact h
  | getTransactions reload =>
    cases hs
    exact PollState.same h (samePolls_request rfl c)
  | sendGrams key payment =>
    cases hs
    exact PollState.same h (samePolls_request rfl c)
  | checkPending state =>
    cases hs
    exact PollState.same h (sameButData_checkPending state c).samePolls
  | clearPendingCache =>
    cases hs
    exact PollState.same h (sameButData_clearPendingCache c).samePolls
  | saveWalletKeys finish =>
    cases hs
    exact h.saveWalletKeys finish
  | setUserPasscode passcodeType salt encrypted =>
    simp only [TonController.step, setUserPasscode] at hs
    split at hs <;> cases hs
    exact h
  | finishSettingUserPasscode =>
    cases hs
    exact h
  | prepareForPasscodeChange =>
    simp only [TonController.step, prepareForPasscodeChange] at hs
    split at hs <;> cases hs
    exact h
  | fillMemInputKey decrypted =>
    cases hs
    exact h
  | settings e =>
    simp only [TonController.step] at hs
    split at hs
    · obtain ⟨_, _, rfl⟩ := Option.map_eq_some_iff.1 hs
      exact h
    · cases hs
  | restart =>
    obtain ⟨_, _, rfl⟩ := Option.map_eq_some_iff.1 hs
    exact .idle rfl rfl rfl rfl

/-- At most one poll is scheduled or running, the runnable is set only meanwhile, and a poll is scheduled
when there is none: in every run whose polls find payments when they start, and in which none is scheduled
while a cancelled one waits for its answer. -/
theorem onePoll_of_run {es : List Event} {c : TonController} (h : Run (Steps.When step PollOk) {} es c) : OnePoll c :=
  PollState.onePoll (h.inv (I := fun c => PollState c.polling c.polls) (.idle rfl rfl rfl rfl)
    fun _ _ _ hi hr => hi.step hr.1 hr.2)

/-- No other step keeps it. -/
theorem pollOk_of_onePoll {c' : TonController} {e : Event} (h : PollState c.polling c.polls) (hs : c.step e = some c')
    (hone : OnePoll c') : PollOk c e := by
  cases e with
  | shortPollDue r =>
    intro hp
    simp only [TonController.step] at hs
    split at hs
    · next hr =>
      cases hs
      cases h with
      | idle hd =>
        rw [hd] at hr
        cases hr
      | running _ hd =>
        rw [hd] at hr
        cases hr
      | scheduled s hd hps hset _ =>
        obtain rfl : r = s := by
          rw [hd] at hr
          exact List.mem_singleton.1 hr
        -- the runnable that returned early is neither queued nor a poll
        unfold runShortPolling at hone
        rw [if_pos (.inr hp)] at hone
        have hq : r ∈ c.polling.delayed.erase r ∨ r ∈ c.polls := hone.runnable r hset
        simp [hd, hps] at hq
    · cases hs
  | scheduleShortPoll =>
    intro hr
    cases hs
    cases h with
    | idle _ hp => exact hp
    | scheduled _ _ hp => exact hp
    | running r hd hp =>
      have htwo := hone.atMostOne
      rw [polls_scheduleShortPoll, hp] at htwo
      simp [scheduleShortPoll, hr, hd] at htwo
  | _ => trivial

namespace Sample

/-- A payment is sent and polled for twice, and the second poll finds it confirmed. -/
def polled : List Event :=
  sent ++
    [.scheduleShortPoll, .shortPollDue 0, .answered 0 (.state account), .shortPollDue 1, .getTransactions true,
      .answered 1 (.transactions [⟨30, [], ⟨8, [1]⟩, 1, 0, 1, some ⟨none, none, 5, 0, 0, 0, [9], .text []⟩, none⟩]),
      .answered 0 (.state account)]

/-- The state after it. -/
def afterPolled : TonController := (exec (fun c e => if PollOk c e then c.step e else none) {} polled).getD {}

theorem onePoll_polled : Run (Steps.When step PollOk) {} polled afterPolled ∧ OnePoll afterPolled := by
  have hrun : Run (Steps.When step PollOk) {} polled afterPolled :=
    Run.of_exec_when (Option.getD_of_ne_none (by decide +kernel) _).symm
  exact ⟨hrun, onePoll_of_run hrun⟩

/-- The payment is confirmed before its first poll starts. -/
def confirmedEarly : List Event :=
  sent ++
    [.scheduleShortPoll, .getTransactions true,
      .answered 0 (.transactions [⟨30, [], ⟨8, [1]⟩, 1, 0, 1, some ⟨none, none, 5, 0, 0, 0, [9], .text []⟩, none⟩]),
      .shortPollDue 0]

/-- The runnable stays set, and no poll is ever scheduled again. -/
theorem not_onePoll_confirmedEarly : ¬ ∀ (es : List Event) (c : TonController), Run (Steps step) {} es c → OnePoll c := by
  intro h
  have hrun : Run (Steps step) {} confirmedEarly ((exec step {} confirmedEarly).getD {}) :=
    Run.of_exec (Option.getD_of_ne_none (by decide +kernel) _).symm
  have hset := (h _ _ hrun).runnable 0
  revert hset
  decide +kernel

end Sample

end TonController

end TonWallet.App
