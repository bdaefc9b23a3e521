/-
`LastBlock` and `LastConfig` at work together: the block `LastConfig` asks about is the last block of a
state `LastBlock` has answered with. So the configuration is that of a trusted block, as long as the
lite server answers about the block it was asked for; its answer about another block is taken as well.
-/
import TonWallet.Tonlib.LastConfig

namespace TonWallet.Tonlib

open Lib TonWallet.Td TonWallet.Ton TonWallet.Vm TonWallet.Block

/-- The two actors, with the promises of the `with_last_block` calls `LastBlock` has received. -/
structure SyncSystem [ConfigDump] where
  block : LastBlock
  config : LastConfig
  calls : List Nat := []

namespace SyncSystem

/-- What can happen: an event of one actor alone, or a message from one to the other. -/
inductive Event
  | block (e : LastBlock.Event × Token)
  | config (e : LastConfig.Event)
  /-- A `with_last_block` call reaches `LastBlock`. -/
  | request (token : Token)
  /-- The answer to a promise reaches `LastConfig`. -/
  | reply (promise : Nat)

/-- What `LastBlock` has answered to a promise. -/
def answerTo (promise : Nat) (out : List (Output × QueryState)) : Option (Except Status LastBlockState) :=
  out.findSome? fun o => match o.1 with
    | .answered p r => if p = promise then some r else none
    | _ => none

/-- A state answered to a promise was given away. -/
theorem gave_of_answerTo {lb : LastBlock} {promise : Nat} {s : LastBlockState}
    (h : answerTo promise lb.out = some (.ok s)) : lb.Gave s := by
  obtain ⟨o, hm, ho⟩ := List.exists_of_findSome?_eq_some h
  refine ⟨o, hm, ?_⟩
  split at ho
  · rename_i heq
    split at ho
    · cases ho
      rw [heq]
      rfl
    · cases ho
  · cases ho

/-- Only `LastBlock` brings `LastConfig` a last block; a call can fail before it reaches it. -/
def brings : LastConfig.Event → Bool
  | .withLastBlock (.ok _) => true
  | _ => false

section

variable [ConfigDump]

def create (config : Config) (cached : LastBlockState) : SyncSystem where
  block := LastBlock.create config cached
  config := LastConfig.create

def step (config : Config) (s : SyncSystem) : Event → Option SyncSystem
  | .block e => (s.block.step config e).map fun block => { s with block }
  | .config e => if brings e then none else (s.config.step e).map fun config => { s with config }
  | .request token =>
    if s.calls.length < s.config.lastBlockRequests then
      (s.block.step config (.getLastBlock, token)).map fun block => { s with block, calls := s.calls ++ [s.block.issued] }
    else none
  | .reply promise =>
    if promise ∈ s.calls then
      (answerTo promise s.block.out).bind fun r =>
        (s.config.step (.withLastBlock r)).map fun config => { s with config, calls := s.calls.erase promise }
    else none

/-- The configuration `LastConfig` has stored. -/
def stored (s : SyncSystem) : Option McConfig.Config := s.config.config

/-! ## One step -/

/-- The event of `LastBlock` an event goes with, and that of `LastConfig`. -/
theorem step_cases {config : Config} {s s' : SyncSystem} {e : Event} (h : step config s e = some s') :
    (∃ e', s.block.step config e' = some s'.block ∧ s'.config = s.config) ∨
    (∃ e', e = .config e' ∧ brings e' = false ∧ s.config.step e' = some s'.config ∧ s'.block = s.block) ∨
    (∃ p r, e = .reply p ∧ answerTo p s.block.out = some r ∧ s.config.step (.withLastBlock r) = some s'.config ∧
      s'.block = s.block) := by
  cases e with
  | block e =>
    obtain ⟨b, hb, rfl⟩ := Option.map_eq_some_iff.1 h
    exact Or.inl ⟨e, hb, rfl⟩
  | config e =>
    simp only [step] at h
    split at h
    · cases h
    · rename_i hbr
      obtain ⟨c, hc, rfl⟩ := Option.map_eq_some_iff.1 h
      exact Or.inr (Or.inl ⟨e, rfl, by simpa using hbr, hc, rfl⟩)
  | request token =>
    simp only [step] at h
    split at h
    · obtain ⟨b, hb, rfl⟩ := Option.map_eq_some_iff.1 h
      exact Or.inl ⟨_, hb, rfl⟩
    · cases h
  | reply p =>
    simp only [step] at h
    split at h
    · obtain ⟨r, hr, h⟩ := Option.bind_eq_some_iff.1 h
      obtain ⟨c, hc, rfl⟩ := Option.map_eq_some_iff.1 h
      exact Or.inr (Or.inr ⟨p, r, rfl, hr, hc, rfl⟩)
    · cases h

/-- An event of `LastConfig` alone. -/
theorem step_config {config : Config} {s : SyncSystem} {e : LastConfig.Event} {lc : LastConfig} (hbrings : brings e = false)
    (h : s.config.step e = some lc) : step config s (.config e) = some { s with config := lc } := by
  simp only [step, hbrings, Bool.false_eq_true, if_false, h, Option.map_some]

/-! ## Runs -/

/-- The events of `LastBlock` in a run of the system are a run of `LastBlock`. -/
theorem run_block {config : Config} {cached : LastBlockState} {es : List Event} {s : SyncSystem}
    (h : Run (Steps (step config)) (create config cached) es s) :
    ∃ bs, Run (Steps (LastBlock.step config)) (LastBlock.create config cached) bs s.block := by
  induction h with
  | nil => exact ⟨[], .nil⟩
  | snoc _ hs ih =>
    obtain ⟨bs, hbs⟩ := ih
    rcases step_cases hs with ⟨e, he, -⟩ | ⟨_, -, -, -, hb⟩ | ⟨_, _, -, -, -, hb⟩
    · exact ⟨bs ++ [e], hbs.snoc he⟩
    · exact ⟨bs, hb ▸ hbs⟩
    · exact ⟨bs, hb ▸ hbs⟩

/-- The blocks `LastConfig` has received are the last blocks of states `LastBlock` has given away. -/
def Received (s : SyncSystem) : Prop := ∀ b ∈ s.config.received, ∃ st, s.block.Gave st ∧ st.lastBlockId = b

theorem received_step {config : Config} {s s' : SyncSystem} {e : Event} (h : step config s e = some s')
    (hr : Received s) : Received s' := by
  intro b hb
  rcases step_cases h with ⟨e, he, hc⟩ | ⟨e, -, hbr, hc, hblock⟩ | ⟨p, r, -, ha, hc, hblock⟩
  · obtain ⟨st, hst, hid⟩ := hr b (hc ▸ hb)
    exact ⟨st, (LastBlock.evolves_step he).gave hst, hid⟩
  · rcases LastConfig.received_step hc with hrec | ⟨st, rfl, -⟩
    · obtain ⟨st, hst, hid⟩ := hr b (hrec ▸ hb)
      exact ⟨st, hblock ▸ hst, hid⟩
    · cases hbr
  · rcases LastConfig.received_step hc with hrec | ⟨st, hst, hrec⟩
    · obtain ⟨st, hst, hid⟩ := hr b (hrec ▸ hb)
      exact ⟨st, hblock ▸ hst, hid⟩
    · cases hst
      rw [hrec] at hb
      rcases List.mem_append.1 hb with hb | hb
      · obtain ⟨st, hst, hid⟩ := hr b hb
        exact ⟨st, hblock ▸ hst, hid⟩
      · exact ⟨st, hblock ▸ gave_of_answerTo ha, (List.mem_singleton.1 hb).symm⟩

/-- The answers of the lite server about configurations name the block they were asked about. -/
def NamesAsked : Event → Prop
  | .config e => LastConfig.NamesAsked e
  | _ => True

theorem configInv_step {config : Config} {s s' : SyncSystem} {e : Event} (h : step config s e = some s')
    (hn : NamesAsked e) (hi : LastConfig.ConfigInv s.config) : LastConfig.ConfigInv s'.config := by
  rcases step_cases h with ⟨_, -, hc⟩ | ⟨e, rfl, -, hc, -⟩ | ⟨p, r, rfl, -, hc, -⟩
  · exact hc ▸ hi
  · exact LastConfig.configInv_step hc hn hi
  · exact LastConfig.configInv_step hc trivial hi

/-- The configuration of the last block of a state `LastBlock` has given away, which is trusted. -/
def TrustedConfig (config : Config) (cached : LastBlockState) (lb : LastBlock) (b : BlockIdExt)
    (cfg : McConfig.Config) : Prop :=
  (∃ st, lb.Gave st ∧ st.lastBlockId = b) ∧ LastBlock.Trusted config cached b ∧ LastConfig.ExtractedFrom b cfg

/-- In every run whose configuration answers name the block asked about, the stored configuration and
every configuration handed to a promise is that of the state of the trusted block which was asked about,
and an answer about another block changes nothing that is stored. -/
theorem configuration_trusted_of_run {config : Config} {cached : LastBlockState} {es : List Event} {s : SyncSystem}
    (h : Run (Steps.When (step config) fun _ e => NamesAsked e) (create config cached) es s) :
    (∀ cfg, s.stored = some cfg →
      ∃ b, s.config.configOf = some b ∧ TrustedConfig config cached s.block b cfg) ∧
    (∀ p r, (p, .ok r) ∈ s.config.out →
      ∃ cfg b, r = (some cfg, some b) ∧ TrustedConfig config cached s.block b cfg) ∧
    ∀ asked raw s', raw.id ≠ asked → NamesAsked (.config (.onConfig asked (.ok raw))) →
      step config s (.config (.onConfig asked (.ok raw))) = some s' → s'.stored = s.stored := by
  obtain ⟨hrec, hcfg⟩ := h.inv (I := fun s => Received s ∧ LastConfig.ConfigInv s.config)
    ⟨fun _ hb => by simp [create, LastConfig.create] at hb, LastConfig.configInv_create⟩
    fun _ _ _ hi hs => ⟨received_step hs.2 hi.1, configInv_step hs.2 hs.1 hi.2⟩
  obtain ⟨bs, hbs⟩ := run_block (h.mono fun _ _ _ hs => hs.2)
  have htrust {b : BlockIdExt} {cfg : McConfig.Config} (hb : b ∈ s.config.received)
      (he : LastConfig.ExtractedFrom b cfg) : TrustedConfig config cached s.block b cfg := by
    obtain ⟨st, hst, rfl⟩ := hrec b hb
    exact ⟨⟨st, hst, rfl⟩, LastBlock.trusted_of_gave hbs st hst, he⟩
  refine ⟨fun cfg hc => ?_, fun p r hm => ?_, fun asked raw s' hother hn hs => ?_⟩
  · obtain ⟨b, ho, hb, he⟩ := hcfg.stored cfg hc
    exact ⟨b, ho, htrust hb he⟩
  · obtain ⟨cfg, b, hr, hb, he⟩ := hcfg.answered p r hm
    exact ⟨cfg, b, hr, htrust hb he⟩
  · rcases step_cases hs with ⟨e, -, hc⟩ | ⟨e, he, -, hc, -⟩ | ⟨_, _, he, -⟩
    · rw [stored, stored, hc]
    · cases he
      exact LastConfig.config_of_other_block hc hn hother
    · cases he

end

/-! ## A small network -/

namespace Sample

open Block.Sample LastBlock.Sample LastConfig.Sample

/-- The configuration of the sample of `LastBlock`. -/
abbrev network : Config := LastBlock.Sample.config

/-- A cached key block, with the initial block checked. -/
def checked (key : BlockIdExt) : LastBlockState := { cached key with initBlockId := network.initBlockId }

/-- `LastConfig` gets its last block, which is the cached key block, and asks about it. -/
def synchronize (key : BlockIdExt) : List Event :=
  [.config .getLastConfig, .request {},
    .block (.masterchainInfo (.ok ⟨key, LastBlock.configZeroState network⟩), {}),
    .block (.blockProof key (.ok ⟨true, key, key, []⟩), {}), .reply 0]

def afterSynchronize (key : BlockIdExt) : @SyncSystem configDump :=
  (exec (@step configDump network) (@create configDump network (checked key)) (synchronize key)).getD
    (@create configDump network (checked key))

/-- A block the answer below names, and one it does not. -/
def named : BlockIdExt := blockId 1 (blockCell 1 false)
def other : BlockIdExt := LastBlock.Sample.block masterchainId 5

/-- The run ends with the question about the key block, and nothing stored. -/
theorem exec_synchronize {key : BlockIdExt} (hkey : key = named ∨ key = other) :
    exec (@step configDump network) (@create configDump network (checked key)) (synchronize key) =
        some (afterSynchronize key) ∧
      (@LastConfig.closed configDump (@SyncSystem.config configDump (afterSynchronize key)) = false ∧
        key ∈ @LastConfig.inFlight configDump (@SyncSystem.config configDump (afterSynchronize key))) ∧
      @stored configDump (afterSynchronize key) = none := by
  have h : (exec (@step configDump network) (@create configDump network (checked key)) (synchronize key)).any (fun s =>
      (!@LastConfig.closed configDump (@SyncSystem.config configDump s) &&
        decide (key ∈ @LastConfig.inFlight configDump (@SyncSystem.config configDump s))) &&
        (@stored configDump s).isNone) = true := by
    rcases hkey with rfl | rfl <;> decide +kernel
  obtain ⟨s, hs, hasks⟩ := (Option.any_eq_true _ _).1 h
  rw [Bool.and_eq_true, Bool.and_eq_true, Bool.not_eq_true', decide_eq_true_iff, Option.isNone_iff_eq_none] at hasks
  rw [afterSynchronize, hs, Option.getD_some]
  exact ⟨rfl, hasks⟩

theorem run_synchronize {key : BlockIdExt} (hkey : key = named ∨ key = other) :
    Run (Steps (@step configDump network)) (@create configDump network (checked key)) (synchronize key)
      (afterSynchronize key) :=
  Run.of_exec (exec_synchronize hkey).1

/-- The answer about block 1, with the proofs of its state. -/
def answerOne : ConfigInfoAnswer := ⟨named, [1, 1], [0, 1]⟩

def configAnswer (asked : BlockIdExt) : Event := .config (.onConfig asked (.ok answerOne))

def afterAnswer (key : BlockIdExt) : @SyncSystem configDump :=
  (@step configDump network (afterSynchronize key) (configAnswer key)).getD (afterSynchronize key)

theorem processConfig_answerOne : ∃ cfg, @LastConfig.processConfig configDump (.ok answerOne) = .ok cfg := by
  have h : (@LastConfig.processConfig configDump (.ok answerOne)).isOk = true := by decide +kernel
  cases hcfg : @LastConfig.processConfig configDump (.ok answerOne) with
  | error e =>
    rw [hcfg] at h
    cases h
  | ok cfg => exact ⟨cfg, rfl⟩

/-- The answer is stored, whatever was asked about. -/
theorem configAnswer_stored {key : BlockIdExt} (hkey : key = named ∨ key = other) :
    ∃ s cfg, @step configDump network (afterSynchronize key) (configAnswer key) = some s ∧ @stored configDump s = some cfg := by
  obtain ⟨-, ⟨hopen, hasked⟩, -⟩ := exec_synchronize hkey
  obtain ⟨cfg, hcfg⟩ := processConfig_answerOne
  obtain ⟨lc, hlc, hconfig⟩ := @LastConfig.step_onConfig_of_ok configDump _ _ _ _ hopen hasked hcfg
  exact ⟨_, cfg, @step_config configDump network _ _ _ rfl hlc, hconfig⟩

theorem step_configAnswer {key : BlockIdExt} (hkey : key = named ∨ key = other) :
    @step configDump network (afterSynchronize key) (configAnswer key) = some (afterAnswer key) := by
  obtain ⟨s, cfg, hs, -⟩ := configAnswer_stored hkey
  rw [afterAnswer, hs, Option.getD_some]

theorem config_afterAnswer {key : BlockIdExt} (hkey : key = named ∨ key = other) :
    (@stored configDump (afterAnswer key)).isSome = true := by
  obtain ⟨s, cfg, hs, hcfg⟩ := configAnswer_stored hkey
  rw [afterAnswer, hs, Option.getD_some, hcfg]
  rfl

/-- The answer about the block asked about brings its configuration. -/
theorem configuration_trusted_named :
    ∃ cfg b, @stored configDump (afterAnswer named) = some cfg ∧
      @TrustedConfig configDump network (checked named) (@SyncSystem.block configDump (afterAnswer named)) b cfg := by
  have hrun := (run_synchronize (Or.inl rfl)).snoc (step_configAnswer (Or.inl rfl))
  have hwhen : ∀ e ∈ synchronize named ++ [configAnswer named], @NamesAsked configDump e := by
    simp only [synchronize, List.cons_append, List.nil_append, List.forall_mem_cons]
    exact ⟨trivial, trivial, trivial, trivial, trivial, fun _ _ => rfl, fun _ h => by cases h⟩
  obtain ⟨cfg, hcfg⟩ := Option.isSome_iff_exists.1 (config_afterAnswer (Or.inl rfl))
  obtain ⟨b, -, hb⟩ := (@configuration_trusted_of_run configDump network _ _ _ (hrun.when hwhen)).1 cfg hcfg
  exact ⟨cfg, b, hcfg, hb⟩

/-- The answer about another block is taken just as well. -/
theorem config_of_other_block_stored :
    ¬ ∀ (E : ConfigDump) (config : Config) (cached : LastBlockState) (es : List Event) (s s' : @SyncSystem E)
      (asked : BlockIdExt) (raw : ConfigInfoAnswer), Run (Steps (@step E config)) (@create E config cached) es s →
      raw.id ≠ asked → @step E config s (.config (.onConfig asked (.ok raw))) = some s' →
      @stored E s' = @stored E s := by
  intro h
  have hdiffer : answerOne.id ≠ other := fun heq => absurd (congrArg (·.id.seqno) heq) (by decide)
  have hsame := h configDump network _ _ _ _ other answerOne (run_synchronize (Or.inr rfl)) hdiffer
    (step_configAnswer (Or.inr rfl))
  have hnone := (exec_synchronize (Or.inr rfl : other = named ∨ other = other)).2.2
  have hsome := config_afterAnswer (Or.inr rfl : other = named ∨ other = other)
  rw [hsame, hnone] at hsome
  cases hsome

end Sample

end SyncSystem

end TonWallet.Tonlib
