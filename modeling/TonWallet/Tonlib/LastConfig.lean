/-
`tonlib::LastConfig`: the actor that fetches the blockchain configuration. It asks `LastBlock` for the
last block and the lite server for the configuration of that block, one request after the other. What
it stores is the configuration of the state of the block named in the answer, which nobody compares
with the block asked about; and a failed answer of `LastBlock` leaves it active with nothing in flight.
-/
import TonWallet.Tonlib.LastBlockTrust

namespace TonWallet.Tonlib

open Lib TonWallet.Td TonWallet.Ton TonWallet.Vm TonWallet.Block

/-! ## Data -/

/-- What printing the configuration to the log needs besides: looking a parameter up, and the two printers. -/
class ConfigDump extends McConfig where
  getConfigParam : Config → Int → Result (Option CellRef)
  printRef : Int → CellRef → Result Unit
  printRec : CellSlice → Result Unit

/-- `liteServer.configInfo`: the parts that are read. -/
structure ConfigInfoAnswer where
  id : BlockIdExt
  stateProof : List UInt8
  configProof : List UInt8

/-- The fields of `LastConfig`, the promises by number, and what surrounds the actor. -/
structure LastConfig [ConfigDump] where
  /-- `state_.config`. -/
  config : Option McConfig.Config := none
  getConfigState : QueryState := .empty
  promises : List Nat := []
  closed : Bool := false
  /-- `with_last_block` requests not answered yet. -/
  lastBlockRequests : Nat := 0
  /-- `getConfigParams` queries not answered yet, by the block they ask about. -/
  inFlight : List BlockIdExt := []
  issued : Nat := 0
  /-- The promises answered so far; a configuration comes with the block it was asked for. -/
  out : List (Nat × Except Status (Option McConfig.Config × Option BlockIdExt)) := []
  /-- The last blocks received from `LastBlock`. -/
  received : List BlockIdExt := []
  /-- The block the query that brought `config` asked about. -/
  configOf : Option BlockIdExt := none

namespace LastConfig

section

variable [ConfigDump]

/-- The constructor. -/
def create : LastConfig := {}

def params : List Int := [4, 18, 20, 21, 24, 25]

/-! ## The actor -/

/-- Answer every waiting promise and clear the list. -/
def answerAll (r : Except Status (Option McConfig.Config × Option BlockIdExt)) (lc : LastConfig) : LastConfig :=
  { lc with promises := [], out := lc.out ++ lc.promises.map fun p => (p, r) }

def onOk (lc : LastConfig) : LastConfig := lc.answerAll (.ok (lc.config, lc.configOf))
def onError (status : Status) (lc : LastConfig) : LastConfig := lc.answerAll (.error status)

/-- `loop`: ask `LastBlock` for the last block. -/
def loop (lc : LastConfig) : LastConfig :=
  if lc.promises.isEmpty then lc
  else if lc.getConfigState = .empty then
    { lc with getConfigState := .active, lastBlockRequests := lc.lastBlockRequests + 1 }
  else lc

/-- The first of new waiting promises starts a new query. -/
def resetGetConfig (lc : LastConfig) : LastConfig :=
  if lc.promises.isEmpty ∧ lc.getConfigState = .done then { lc with getConfigState := .empty } else lc

/-- A new promise gets the next number and waits. -/
def pushPromise (lc : LastConfig) : LastConfig :=
  { lc with promises := lc.promises ++ [lc.issued], issued := lc.issued + 1 }

def getLastConfig (lc : LastConfig) : LastConfig := lc.resetGetConfig.pushPromise.loop

def withLastBlock (r : Except Status LastBlockState) (lc : LastConfig) : LastConfig :=
  match r with
  -- `get_config_state_` stays as it is
  | .error status => lc.onError status
  | .ok lastBlock => { lc with
      inFlight := lc.inFlight ++ [lastBlock.lastBlockId], received := lc.received ++ [lastBlock.lastBlockId] }

/-- One round of the loop that prints the parameters. -/
def dumpParam (config : McConfig.Config) (i : Int) : Result Unit := do
  match ← ConfigDump.getConfigParam config i with
  | none => return ()
  | some value =>
    if 0 ≤ i then ConfigDump.printRef i value
    ConfigDump.printRec (← loadCellSlice value)

/-- `process_config_proof`: the configuration to store. -/
def processConfigProof (raw : ConfigInfoAnswer) : Result McConfig.Config := do
  let blkid := raw.id
  failIf (!blkid.isMasterchainExt)
    ("reference block " ++ blkid.toStr ++ " for the configuration is not a valid masterchain block")
  let state ← checkExtractStateProof blkid raw.stateProof raw.configProof
  let config ← McConfig.extractFromState state
  params.forM (dumpParam config)
  return config

def processConfig (r : Except Status ConfigInfoAnswer) : Result McConfig.Config := do
  let raw ← ofStatus r
  tryPrefix TonlibError.validateConfig (tryVm (processConfigProof raw))

/-- `on_config` for the answer to a query about the block `asked`, which it does not know. `none`: a
failed `CHECK` has ended the process. -/
def onConfig (asked : BlockIdExt) (r : Except Status ConfigInfoAnswer) (lc : LastConfig) : Option LastConfig :=
  match processConfig r with
  | .ok config => some { ({ lc with config := some config, configOf := some asked }).onOk with getConfigState := .done }
  | .error (.status status) => some { lc.onError status with getConfigState := .empty }
  | .error _ => none

def tearDown (lc : LastConfig) : LastConfig := { lc.onError TonlibError.cancelled with closed := true }

/-! ## Steps -/

/-- What can happen to the actor: a call, the answer to a request, a wakeup, or its end. -/
inductive Event
  | getLastConfig
  | withLastBlock (r : Except Status LastBlockState)
  | onConfig (asked : BlockIdExt) (r : Except Status ConfigInfoAnswer)
  | loop
  | tearDown

/-- One event. Only requests in flight are answered, each once, and a closed actor gets no events. -/
def step (lc : LastConfig) (e : Event) : Option LastConfig :=
  if lc.closed then none
  else match e with
    | .getLastConfig => some lc.getLastConfig
    | .withLastBlock r =>
      if 0 < lc.lastBlockRequests then
        some ({ lc with lastBlockRequests := lc.lastBlockRequests - 1 }.withLastBlock r)
      else none
    | .onConfig asked r =>
      if asked ∈ lc.inFlight then { lc with inFlight := lc.inFlight.erase asked }.onConfig asked r else none
    | .loop => some lc.loop
    | .tearDown => some lc.tearDown

/-- A configuration that is made out of an answer is stored. -/
theorem step_onConfig_of_ok {lc : LastConfig} {asked : BlockIdExt} {r : Except Status ConfigInfoAnswer}
    {config : McConfig.Config} (hopen : lc.closed = false) (hasked : asked ∈ lc.inFlight) (h : processConfig r = .ok config) :
    ∃ lc', lc.step (.onConfig asked r) = some lc' ∧ lc'.config = some config := by
  unfold step onConfig
  rw [if_neg (by rw [hopen]; exact Bool.false_ne_true)]
  dsimp only
  rw [if_pos hasked, h]
  exact ⟨_, rfl, rfl⟩

/-! ## Requests and promises -/

/-- How many requests are in flight. -/
def pending (lc : LastConfig) : Nat := lc.lastBlockRequests + lc.inFlight.length

/-- Someone waits only while a request is in flight, and the actor is active exactly then. -/
def Attended (lc : LastConfig) : Prop :=
  (lc.promises ≠ [] → 0 < lc.pending) ∧ (lc.getConfigState = .active ↔ 0 < lc.pending)

/-- One request is in flight while the actor is active, none otherwise, and then nobody waits. -/
structure Live (lc : LastConfig) : Prop where
  active : lc.getConfigState = .active → lc.pending = 1
  idle : lc.getConfigState ≠ .active → lc.pending = 0 ∧ lc.promises = []

/-- Active with nothing in flight: nothing can be answered any more. -/
def Stuck (lc : LastConfig) : Prop := lc.getConfigState = .active ∧ lc.pending = 0

theorem Live.attended {lc : LastConfig} (h : lc.Live) : lc.Attended := by
  by_cases ha : lc.getConfigState = .active
  · have := h.active ha
    exact ⟨fun _ => by omega, fun _ => by omega, fun _ => ha⟩
  · obtain ⟨hp, hnil⟩ := h.idle ha
    exact ⟨fun hne => absurd hnil hne, fun h' => absurd h' ha, fun h' => by omega⟩

theorem Stuck.not_attended {lc : LastConfig} (h : lc.Stuck) : ¬ lc.Attended := by
  intro ha
  have := ha.2.1 h.1
  have := h.2
  omega

/-- The answer of `LastBlock` is an error. -/
def LastBlockFailed : Event → Prop
  | .withLastBlock (.error _) => True
  | _ => False

theorem live_loop {lc : LastConfig} (h : lc.Live ∨ lc.getConfigState = .empty ∧ lc.pending = 0) : lc.loop.Live := by
  unfold loop
  split
  · rename_i hnil
    rcases h with h | ⟨he, hp⟩
    · exact h
    · exact ⟨fun ha => by simp [he] at ha, fun _ => ⟨hp, List.isEmpty_iff.1 hnil⟩⟩
  · split
    · rename_i hne he
      have hp : lc.pending = 0 := h.elim (fun h => (h.idle (by simp [he])).1) (·.2)
      refine ⟨fun _ => ?_, fun hn => absurd rfl hn⟩
      unfold pending at hp ⊢
      show lc.lastBlockRequests + 1 + lc.inFlight.length = 1
      omega
    · rename_i hne
      rcases h with h | ⟨he, -⟩
      · exact h
      · exact absurd he hne

theorem live_getLastConfig {lc : LastConfig} (h : lc.Live) : lc.getLastConfig.Live := by
  by_cases ha : lc.getConfigState = .active
  · have hr : lc.resetGetConfig = lc := by unfold resetGetConfig; simp [ha]
    unfold getLastConfig
    rw [hr]
    have hl : lc.pushPromise.loop = lc.pushPromise := by
      unfold loop pushPromise
      simp [ha]
    rw [hl]
    exact ⟨h.active, fun hn => absurd ha hn⟩
  · obtain ⟨hp, hnil⟩ := h.idle ha
    refine live_loop (Or.inr ⟨?_, ?_⟩)
    · show lc.resetGetConfig.getConfigState = .empty
      unfold resetGetConfig
      cases hs : lc.getConfigState with
      | empty => simp [hs]
      | active => exact absurd hs ha
      | done => simp [hnil]
    · show lc.resetGetConfig.pending = 0
      unfold resetGetConfig
      split <;> exact hp

/-- As long as `LastBlock` does not fail, one request is in flight while the actor is active. -/
theorem live_step {lc lc' : LastConfig} {e : Event} (h : lc.step e = some lc') (hok : ¬ LastBlockFailed e)
    (hl : lc.Live) : lc'.Live := by
  unfold step at h
  split at h
  · cases h
  · cases e with
    | getLastConfig => cases h; exact live_getLastConfig hl
    | loop => cases h; exact live_loop (Or.inl hl)
    | tearDown => cases h; exact ⟨hl.active, fun hn => ⟨(hl.idle hn).1, rfl⟩⟩
    | withLastBlock r =>
      simp only at h
      split at h
      · rename_i hpos
        cases r with
        | error status => exact absurd trivial hok
        | ok lastBlock =>
          cases h
          have hact : lc.getConfigState = .active := by
            by_contra hn
            have := (hl.idle hn).1
            unfold pending at this
            omega
          have hp := hl.active hact
          refine ⟨fun _ => ?_, fun hn => absurd hact hn⟩
          unfold pending at hp ⊢
          simp only [withLastBlock, List.length_append, List.length_singleton]
          omega
      · cases h
    | onConfig asked r =>
      simp only at h
      split at h
      · rename_i hm
        have hpos : 0 < lc.inFlight.length := List.length_pos_of_mem hm
        have hact : lc.getConfigState = .active := by
          by_contra hn
          have := (hl.idle hn).1
          unfold pending at this
          omega
        have hp := hl.active hact
        have hzero : lc.lastBlockRequests + (lc.inFlight.erase asked).length = 0 := by
          rw [List.length_erase_of_mem hm]
          unfold pending at hp
          omega
        unfold onConfig at h
        split at h
        · cases h
          exact ⟨fun ha => by simp at ha, fun _ => ⟨hzero, rfl⟩⟩
        · cases h
          exact ⟨fun ha => by simp at ha, fun _ => ⟨hzero, rfl⟩⟩
        · cases h
      · cases h

/-- A failed answer of `LastBlock` is the last thing that happens to the request. -/
theorem stuck_of_lastBlockFailed {lc lc' : LastConfig} {e : Event} (h : lc.step e = some lc') (hf : LastBlockFailed e)
    (hl : lc.Live) : lc'.Stuck := by
  cases e with
  | withLastBlock r =>
    cases r with
    | ok s => exact absurd hf id
    | error status =>
      unfold step at h
      split at h
      · cases h
      · simp only at h
        split at h
        · rename_i hpos
          cases h
          have hact : lc.getConfigState = .active := by
            by_contra hn
            have := (hl.idle hn).1
            unfold pending at this
            omega
          have hp := hl.active hact
          refine ⟨hact, ?_⟩
          unfold pending at hp ⊢
          show lc.lastBlockRequests - 1 + lc.inFlight.length = 0
          omega
        · cases h
  | getLastConfig => exact absurd hf id
  | onConfig asked r => exact absurd hf id
  | loop => exact absurd hf id
  | tearDown => exact absurd hf id

theorem loop_of_active (lc : LastConfig) (h : lc.getConfigState = .active) : lc.loop = lc := by
  unfold loop
  simp [h]

/-- Nothing ends being stuck. -/
theorem stuck_step {lc lc' : LastConfig} {e : Event} (h : lc.step e = some lc') (hs : lc.Stuck) : lc'.Stuck := by
  obtain ⟨hact, hp⟩ := hs
  have hreq : lc.lastBlockRequests = 0 ∧ lc.inFlight = [] := by
    unfold pending at hp
    exact ⟨by omega, List.eq_nil_of_length_eq_zero (by omega)⟩
  unfold step at h
  split at h
  · cases h
  · cases e with
    | getLastConfig =>
      cases h
      have hr : lc.resetGetConfig = lc := by unfold resetGetConfig; simp [hact]
      unfold getLastConfig
      rw [hr, loop_of_active lc.pushPromise hact]
      exact ⟨hact, hp⟩
    | loop => cases h; rw [loop_of_active lc hact]; exact ⟨hact, hp⟩
    | tearDown => cases h; exact ⟨hact, hp⟩
    | withLastBlock r => simp [hreq.1] at h
    | onConfig asked r => simp [hreq.2] at h

/-- In every run the promises are attended to exactly as long as `LastBlock` has not failed. -/
theorem attended_iff_of_run {es : List Event} {lc : LastConfig} (h : Run (Steps step) create es lc) :
    lc.Attended ↔ ∀ e ∈ es, ¬ LastBlockFailed e := by
  have key : ((∀ e ∈ es, ¬ LastBlockFailed e) → lc.Live) ∧ ((∃ e ∈ es, LastBlockFailed e) → lc.Stuck) := by
    induction h with
    | nil => exact ⟨fun _ => ⟨fun h => by simp [create] at h, fun _ => ⟨rfl, rfl⟩⟩, by simp⟩
    | @snoc es lc lc' e _ hs ih =>
      refine ⟨fun hall => ?_, fun hex => ?_⟩
      · exact live_step hs (hall e (by simp)) (ih.1 fun e' he' => hall e' (by simp [he']))
      · by_cases hbefore : ∃ e' ∈ es, LastBlockFailed e'
        · exact stuck_step hs (ih.2 hbefore)
        · obtain ⟨e', hm, hf⟩ := hex
          have hlive := ih.1 fun e' he' hf' => hbefore ⟨e', he', hf'⟩
          rcases List.mem_append.1 hm with hm | hm
          · exact absurd ⟨e', hm, hf⟩ hbefore
          · cases List.mem_singleton.1 hm
            exact stuck_of_lastBlockFailed hs hf hlive
  by_cases hall : ∀ e ∈ es, ¬ LastBlockFailed e
  · exact ⟨fun _ => hall, fun _ => (key.1 hall).attended⟩
  · have hex : ∃ e ∈ es, LastBlockFailed e := by
      by_contra hn
      exact hall fun e he hf => hn ⟨e, he, hf⟩
    exact ⟨fun ha => absurd ha (key.2 hex).not_attended, fun h => absurd h hall⟩

end

namespace Sample

open Block.Sample

/-- The small library, where no configuration parameter is set. -/
abbrev configDump : ConfigDump where
  toMcConfig := mcConfig
  getConfigParam _ _ := .ok none
  printRef _ _ := .ok ()
  printRec _ := .ok ()

/-- A first promise, the answer of `LastBlock` to it, and a second promise. -/
def twoPromises (r : Except Status LastBlockState) : List Event := [.getLastConfig, .withLastBlock r, .getLastConfig]

def afterTwoPromises (r : Except Status LastBlockState) : @LastConfig configDump :=
  (exec (@step configDump) (@create configDump) (twoPromises r)).getD (@create configDump)

theorem run_twoPromises (r : Except Status LastBlockState) :
    Run (Steps (@step configDump)) (@create configDump) (twoPromises r) (afterTwoPromises r) := by
  cases r <;> exact Run.of_exec rfl

theorem attended_twoPromises :
    @LastConfig.Attended configDump (afterTwoPromises (.ok (LastBlock.Sample.cached .none))) :=
  (@attended_iff_of_run configDump _ _ (run_twoPromises _)).2 (by simp [twoPromises, LastBlockFailed])

/-- After one failed answer of `LastBlock` the next promise waits with nothing in flight. -/
theorem twoPromises_not_attended :
    ¬ ∀ (E : ConfigDump) (es : List Event) (lc : @LastConfig E),
      Run (Steps (@step E)) (@create E) es lc → @LastConfig.Attended E lc := by
  intro h
  have ha := h configDump _ _ (run_twoPromises (.error TonlibError.cancelled))
  exact absurd (ha.1 (List.cons_ne_nil _ _)) (by decide)

end Sample

/-! ## Where the configuration comes from -/

section

variable [ConfigDump]

/-- The configuration of a state the block commits to. -/
def ExtractedFrom (b : BlockIdExt) (config : McConfig.Config) : Prop :=
  ∃ stateRoot, CommittedState b stateRoot ∧ McConfig.extractFromState stateRoot = .ok config

/-- An answer proves a configuration of the block it names. -/
structure SelfConsistent (raw : ConfigInfoAnswer) (config : McConfig.Config) : Prop where
  masterchain : raw.id.isMasterchainExt = true
  proof : ∃ stateRoot, checkExtractStateProof raw.id raw.stateProof raw.configProof = .ok stateRoot ∧
    McConfig.extractFromState stateRoot = .ok config
  dumped : params.forM (dumpParam config) = .ok ()

/-- What is stored comes from the block the answer names, whichever that is. -/
theorem processConfig_ok {r : Except Status ConfigInfoAnswer} {config : McConfig.Config}
    (h : processConfig r = .ok config) : ∃ raw, r = .ok raw ∧ SelfConsistent raw config := by
  obtain ⟨raw, hraw, h⟩ := bind_ok h
  obtain ⟨_, hmc, h⟩ := bind_ok (catchVm_ok_iff.1 (tryPrefix_ok_iff.1 h))
  obtain ⟨stateRoot, hstate, h⟩ := bind_ok h
  obtain ⟨config', hconfig, h⟩ := bind_ok h
  obtain ⟨_, hdump, h⟩ := bind_ok h
  cases h
  exact ⟨raw, ofStatus_ok_iff.1 hraw, by simpa using failIf_ok_iff.1 hmc, ⟨stateRoot, hstate, hconfig⟩, hdump⟩

theorem SelfConsistent.extractedFrom {raw : ConfigInfoAnswer} {config : McConfig.Config}
    (h : SelfConsistent raw config) : ExtractedFrom raw.id config := by
  obtain ⟨stateRoot, hstate, hconfig⟩ := h.proof
  exact ⟨stateRoot, checkExtractStateProof_ok hstate, hconfig⟩

/-- An answer that proves a configuration names the block that was asked about. -/
def NamesAsked : Event → Prop
  | .onConfig asked (.ok raw) => ∀ config, SelfConsistent raw config → raw.id = asked
  | _ => True

/-- An answer about another block changes the stored configuration only if it breaks the condition. -/
theorem config_of_other_block {lc lc' : LastConfig} {asked : BlockIdExt} {raw : ConfigInfoAnswer}
    (h : lc.step (.onConfig asked (.ok raw)) = some lc') (hn : NamesAsked (.onConfig asked (.ok raw)))
    (hother : raw.id ≠ asked) : lc'.config = lc.config := by
  unfold step at h
  split at h
  · cases h
  · simp only at h
    split at h
    · unfold onConfig at h
      split at h
      · rename_i config hconfig
        obtain ⟨_, hraw, hself⟩ := processConfig_ok hconfig
        cases hraw
        exact absurd (hn config hself) hother
      · cases h; rfl
      · cases h
    · cases h

/-- The blocks asked about were received from `LastBlock`, and the stored and the answered configuration
are of the block they were asked for. -/
structure ConfigInv (lc : LastConfig) : Prop where
  asked : ∀ b ∈ lc.inFlight, b ∈ lc.received
  stored : ∀ config, lc.config = some config → ∃ b, lc.configOf = some b ∧ b ∈ lc.received ∧ ExtractedFrom b config
  answered : ∀ p r, (p, .ok r) ∈ lc.out → ∃ config b, r = (some config, some b) ∧ b ∈ lc.received ∧
    ExtractedFrom b config

namespace ConfigInv

variable {a b : LastConfig}

/-- A change of the other fields. -/
theorem of_eq (h : ConfigInv a) (hf : ∀ x ∈ b.inFlight, x ∈ a.inFlight) (hc : b.config = a.config)
    (ho : b.configOf = a.configOf) (hr : b.received = a.received) (hout : b.out = a.out) : ConfigInv b :=
  ⟨fun x hx => hr ▸ h.asked x (hf x hx), fun c hcfg => by rw [ho, hr]; exact h.stored c (hc ▸ hcfg),
    fun p r hm => by rw [hr]; exact h.answered p r (hout ▸ hm)⟩

theorem onError (h : ConfigInv a) (status : Status) : ConfigInv (a.onError status) := by
  refine ⟨h.asked, h.stored, fun p r hm => ?_⟩
  rcases List.mem_append.1 hm with hm | hm
  · exact h.answered p r hm
  · obtain ⟨_, -, hp⟩ := List.mem_map.1 hm
    cases hp

theorem loop (h : ConfigInv a) : ConfigInv a.loop := by
  unfold LastConfig.loop
  split
  · exact h
  · split
    · exact h.of_eq (fun _ => id) rfl rfl rfl rfl
    · exact h

theorem getLastConfig (h : ConfigInv a) : ConfigInv a.getLastConfig := by
  refine loop (h.of_eq ?_ ?_ ?_ ?_ ?_)
  all_goals unfold pushPromise resetGetConfig; split
  all_goals first | rfl | exact fun _ => id

theorem withLastBlock (h : ConfigInv a) (r : Except Status LastBlockState) : ConfigInv (a.withLastBlock r) := by
  cases r with
  | error status => exact h.onError status
  | ok lastBlock =>
    refine ⟨fun x hx => ?_, fun c hc => ?_, fun p r hm => ?_⟩
    · exact List.mem_append.2 ((List.mem_append.1 hx).imp (h.asked x) id)
    · obtain ⟨x, ho, hm, he⟩ := h.stored c hc
      exact ⟨x, ho, List.mem_append_left _ hm, he⟩
    · obtain ⟨c, x, hr, hm, he⟩ := h.answered p r hm
      exact ⟨c, x, hr, List.mem_append_left _ hm, he⟩

theorem onConfig (h : ConfigInv a) {asked : BlockIdExt} {r : Except Status ConfigInfoAnswer}
    (hs : a.onConfig asked r = some b) (hasked : asked ∈ a.received) (hn : NamesAsked (.onConfig asked r)) :
    ConfigInv b := by
  unfold LastConfig.onConfig at hs
  split at hs
  · rename_i config hconfig
    cases hs
    obtain ⟨raw, rfl, hself⟩ := processConfig_ok hconfig
    have hext := hself.extractedFrom
    rw [hn config hself] at hext
    refine ⟨h.asked, fun c hc => ?_, fun p r hm => ?_⟩
    · cases hc
      exact ⟨asked, rfl, hasked, hext⟩
    · rcases List.mem_append.1 hm with hm | hm
      · exact h.answered p r hm
      · obtain ⟨_, -, hp⟩ := List.mem_map.1 hm
        cases hp
        exact ⟨config, asked, rfl, hasked, hext⟩
  · cases hs
    exact (h.onError _).of_eq (fun _ => id) rfl rfl rfl rfl
  · cases hs

end ConfigInv

theorem configInv_step {lc lc' : LastConfig} {e : Event} (h : lc.step e = some lc') (hn : NamesAsked e)
    (hi : ConfigInv lc) : ConfigInv lc' := by
  unfold step at h
  split at h
  · cases h
  · cases e with
    | getLastConfig => cases h; exact hi.getLastConfig
    | loop => cases h; exact hi.loop
    | tearDown => cases h; exact (hi.onError _).of_eq (fun _ => id) rfl rfl rfl rfl
    | withLastBlock r =>
      simp only at h
      split at h
      · cases h
        exact ConfigInv.withLastBlock (a := { lc with lastBlockRequests := lc.lastBlockRequests - 1 })
          (hi.of_eq (fun _ => id) rfl rfl rfl rfl) r
      · cases h
    | onConfig asked r =>
      simp only at h
      split at h
      · rename_i hm
        exact ConfigInv.onConfig (a := { lc with inFlight := lc.inFlight.erase asked })
          (hi.of_eq (fun _ => List.mem_of_mem_erase) rfl rfl rfl rfl) h (hi.asked asked hm) hn
      · cases h

/-- Only an answer of `LastBlock` adds to the blocks received. -/
theorem received_step {lc lc' : LastConfig} {e : Event} (h : lc.step e = some lc') :
    lc'.received = lc.received ∨ ∃ s, e = .withLastBlock (.ok s) ∧ lc'.received = lc.received ++ [s.lastBlockId] := by
  unfold step at h
  split at h
  · cases h
  · cases e with
    | getLastConfig =>
      cases h
      unfold getLastConfig loop pushPromise resetGetConfig
      repeat' split
      all_goals exact Or.inl rfl
    | loop =>
      cases h
      unfold loop
      repeat' split
      all_goals exact Or.inl rfl
    | tearDown => cases h; exact Or.inl rfl
    | withLastBlock r =>
      simp only at h
      split at h
      · cases h
        cases r with
        | error status => exact Or.inl rfl
        | ok s => exact Or.inr ⟨s, rfl, rfl⟩
      · cases h
    | onConfig asked r =>
      simp only at h
      split at h
      · unfold onConfig at h
        split at h
        · cases h; exact Or.inl rfl
        · cases h; exact Or.inl rfl
        · cases h
      · cases h

theorem configInv_create : ConfigInv create :=
  ⟨fun _ h => by simp [create] at h, fun _ h => by simp [create] at h, fun _ _ h => by simp [create] at h⟩

end

end LastConfig

end TonWallet.Tonlib
