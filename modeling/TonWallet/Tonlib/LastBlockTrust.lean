/-
What `LastBlock` believes: its block ids and its time only advance and freeze after a fatal error, all
its block ids are linked to the cached key block or to the initial block of the configuration, a state
leaves it only when the initial block was checked, and a check that ends at its target has walked a
path of accepted links from one end to the other.
-/
import TonWallet.Tonlib.LastBlockQueries

namespace TonWallet.Tonlib

open Lib TonWallet.Td TonWallet.Ton TonWallet.Block

/-! ## Advancing ids -/

/-- From a valid id to a valid id of no lower number. -/
def Advances (a b : BlockIdExt) : Prop := a.isValid = true → b.isValid = true ∧ a.seqno ≤ b.seqno

theorem Advances.refl (a : BlockIdExt) : Advances a a := fun h => ⟨h, UInt32.le_refl _⟩

theorem Advances.trans {a b c : BlockIdExt} (h : Advances a b) (h' : Advances b c) : Advances a c := fun ha =>
  have hb := h ha
  have hc := h' hb.1
  ⟨hc.1, UInt32.le_trans hb.2 hc.2⟩

namespace LastBlock

theorem advances_of_replaces {new old : BlockIdExt} (h : replaces new old = true) : Advances old new := by
  intro ho
  simp only [replaces, ho, Bool.not_true, Bool.false_or, Bool.and_eq_true, decide_eq_true_eq] at h
  exact ⟨h.1, UInt32.le_of_lt h.2⟩

/-! ## What a handler can do to the state -/

/-- A state is given away only when the initial block was checked. -/
def GivenAway (o : Output × QueryState) : Prop := ∀ s, o.1.state? = some s → o.2 = .done

/-- What holds between the states before and after any part of a handler. -/
structure Evolves (lb lb' : LastBlock) : Prop where
  utime : lb.state.utime ≤ lb'.state.utime
  lastBlockId : Advances lb.state.lastBlockId lb'.state.lastBlockId
  lastKeyBlockId : Advances lb.state.lastKeyBlockId lb'.state.lastKeyBlockId
  /-- A fatal error is never taken back, and the ids are frozen from then on. -/
  frozen : lb.hasFatalError = true → lb'.hasFatalError = true ∧ lb'.state.lastBlockId = lb.state.lastBlockId ∧
    lb'.state.lastKeyBlockId = lb.state.lastKeyBlockId ∧ lb'.state.initBlockId = lb.state.initBlockId
  out : ∃ outs, lb'.out = lb.out ++ outs ∧ ∀ o ∈ outs, GivenAway o

namespace Evolves

variable {a b c : LastBlock}

theorem refl (a : LastBlock) : Evolves a a :=
  ⟨le_rfl, .refl _, .refl _, fun h => ⟨h, rfl, rfl, rfl⟩, [], by simp, by simp⟩

theorem trans (h : Evolves a b) (h' : Evolves b c) : Evolves a c := by
  refine ⟨h.utime.trans h'.utime, h.lastBlockId.trans h'.lastBlockId, h.lastKeyBlockId.trans h'.lastKeyBlockId,
    fun hf => ?_, ?_⟩
  · obtain ⟨hf, h1, h2, h3⟩ := h.frozen hf
    obtain ⟨hf, g1, g2, g3⟩ := h'.frozen hf
    exact ⟨hf, g1.trans h1, g2.trans h2, g3.trans h3⟩
  · obtain ⟨os, ho, hos⟩ := h.out
    obtain ⟨os', ho', hos'⟩ := h'.out
    exact ⟨os ++ os', by rw [ho', ho, List.append_assoc], fun o hm => (List.mem_append.1 hm).elim (hos o) (hos' o)⟩

end Evolves

/-- The state was persisted or answered to a promise. -/
def Gave (lb : LastBlock) (s : LastBlockState) : Prop := ∃ o ∈ lb.out, o.1.state? = some s

theorem Evolves.gave {a b : LastBlock} (h : Evolves a b) {s : LastBlockState} : a.Gave s → b.Gave s := by
  rintro ⟨o, hm, hs⟩
  obtain ⟨os, ho, -⟩ := h.out
  exact ⟨o, ho ▸ List.mem_append_left _ hm, hs⟩

/-- The states given away between two states have the block id of the later one. -/
def Gives (f : LastBlockState → BlockIdExt) (lb lb' : LastBlock) : Prop :=
  ∀ s, lb'.Gave s → lb.Gave s ∨ f s = f lb'.state

namespace Gives

variable {f : LastBlockState → BlockIdExt} {a b c : LastBlock}

theorem of_eq (ho : b.out = a.out) : Gives f a b := fun _ ⟨o, hm, hs⟩ => Or.inl ⟨o, ho ▸ hm, hs⟩

theorem trans (h : Gives f a b) (h' : Gives f b c) (hf : f c.state = f b.state) : Gives f a c := by
  intro s hs
  rcases h' s hs with hs | hs
  · exact (h s hs).imp id (·.trans hf.symm)
  · exact Or.inr hs

end Gives

theorem gives_emit {f : LastBlockState → BlockIdExt} {o : Output} {lb : LastBlock}
    (h : ∀ s, o.state? = some s → s = lb.state) : Gives f lb (lb.emit o) := by
  rintro s ⟨o', hm, hs⟩
  rcases List.mem_append.1 hm with hm | hm
  · exact Or.inl ⟨o', hm, hs⟩
  · cases List.mem_singleton.1 hm
    exact Or.inr (by rw [h s hs]; rfl)

theorem gives_answerAll {f : LastBlockState → BlockIdExt} {r : Except Status LastBlockState} {lb : LastBlock}
    (h : ∀ s, r = .ok s → s = lb.state) : Gives f lb (lb.answerAll r) := by
  rintro s ⟨o, hm, hs⟩
  rcases List.mem_append.1 hm with hm | hm
  · exact Or.inl ⟨o, hm, hs⟩
  · obtain ⟨p, -, rfl⟩ := List.mem_map.1 hm
    cases r with
    | error e => cases hs
    | ok t =>
      cases hs
      exact Or.inr (by rw [h s rfl]; rfl)

/-- No check of the initial block ends between two states, and nothing about it is given away. -/
structure SameInit (lb lb' : LastBlock) : Prop where
  initBlockId : lb'.state.initBlockId = lb.state.initBlockId
  initChecked : lb'.initChecked = lb.initChecked
  gives : Gives (·.initBlockId) lb lb'

namespace SameInit

variable {a b c : LastBlock}

theorem of_eq (hs : b.state.initBlockId = a.state.initBlockId) (ho : b.out = a.out)
    (hc : b.initChecked = a.initChecked) : SameInit a b := ⟨hs, hc, .of_eq ho⟩

theorem refl (a : LastBlock) : SameInit a a := of_eq rfl rfl rfl

theorem trans (h : SameInit a b) (h' : SameInit b c) : SameInit a c :=
  ⟨h'.initBlockId.trans h.initBlockId, h'.initChecked.trans h.initChecked, h.gives.trans h'.gives h'.initBlockId⟩

end SameInit

/-- What holds between the states around a part of a handler that changes no block id and no time. -/
structure Calm (lb lb' : LastBlock) : Prop where
  utime : lb'.state.utime = lb.state.utime
  lastBlockId : lb'.state.lastBlockId = lb.state.lastBlockId
  lastKeyBlockId : lb'.state.lastKeyBlockId = lb.state.lastKeyBlockId
  init : SameInit lb lb'
  gives : Gives (·.lastBlockId) lb lb'
  fatal : lb.hasFatalError = true → lb'.hasFatalError = true
  out : ∃ outs, lb'.out = lb.out ++ outs ∧ ∀ o ∈ outs, GivenAway o

namespace Calm

variable {a b c : LastBlock}

theorem evolves (h : Calm a b) : Evolves a b :=
  ⟨h.utime ▸ le_rfl, h.lastBlockId ▸ .refl _, h.lastKeyBlockId ▸ .refl _,
    fun hf => ⟨h.fatal hf, h.lastBlockId, h.lastKeyBlockId, h.init.initBlockId⟩, h.out⟩

/-- A change of the other fields is calm. -/
theorem of_eq (hs : b.state = a.state) (hf : b.fatalError = a.fatalError) (ho : b.out = a.out)
    (hc : b.initChecked = a.initChecked) : Calm a b :=
  ⟨by rw [hs], by rw [hs], by rw [hs], .of_eq (by rw [hs]) ho hc, .of_eq ho,
    by unfold hasFatalError; rw [hf]; exact id, [], by simp [ho], by simp⟩

theorem refl (a : LastBlock) : Calm a a := of_eq rfl rfl rfl rfl

theorem trans (h : Calm a b) (h' : Calm b c) : Calm a c :=
  ⟨h'.utime.trans h.utime, h'.lastBlockId.trans h.lastBlockId, h'.lastKeyBlockId.trans h.lastKeyBlockId,
    h.init.trans h'.init, h.gives.trans h'.gives h'.lastBlockId, h'.fatal ∘ h.fatal,
    (h.evolves.trans h'.evolves).out⟩

end Calm

theorem Evolves.of_eq {a b : LastBlock} (hs : b.state = a.state) (hf : b.fatalError = a.fatalError)
    (ho : b.out = a.out) : Evolves a b :=
  ⟨by rw [hs], by rw [hs]; exact .refl _, by rw [hs]; exact .refl _,
    fun h => ⟨by unfold hasFatalError; rw [hf]; exact h, by rw [hs], by rw [hs], by rw [hs]⟩, [], by simp [ho], by simp⟩

theorem calm_emit {o : Output} {lb : LastBlock} (h : GivenAway (o, lb.checkInitBlockState))
    (hs : ∀ s, o.state? = some s → s = lb.state) : Calm lb (lb.emit o) :=
  ⟨rfl, rfl, rfl, ⟨rfl, rfl, gives_emit hs⟩, gives_emit hs, id, _, rfl, by simpa using h⟩

theorem calm_answerAll {r : Except Status LastBlockState} {lb : LastBlock}
    (h : ∀ s, r = .ok s → s = lb.state ∧ lb.checkInitBlockState = .done) : Calm lb (lb.answerAll r) := by
  have hg (f : LastBlockState → BlockIdExt) : Gives f lb (lb.answerAll r) := gives_answerAll fun s hs => (h s hs).1
  refine ⟨rfl, rfl, rfl, ⟨rfl, rfl, hg _⟩, hg _, id, _, rfl, fun o ho s hs => ?_⟩
  obtain ⟨p, -, rfl⟩ := List.mem_map.1 ho
  cases r with
  | error e => cases hs
  | ok t => exact (h t rfl).2

theorem calm_onSyncError (token : Token) (status : Status) (lb : LastBlock) : Calm lb (lb.onSyncError token status) :=
  calm_answerAll (by simp)

theorem calm_onFatalError (token : Token) (status : Status) (lb : LastBlock) : Calm lb (lb.onFatalError token status) :=
  .trans (b := { lb with fatalError := some status })
    ⟨rfl, rfl, rfl, .of_eq rfl rfl rfl, .of_eq rfl, fun _ => rfl, [], by simp, by simp⟩
    (calm_onSyncError token status _)

theorem calm_updateZeroState (token : Token) (z : ZeroStateIdExt) (source : String) (lb : LastBlock) :
    Calm lb (lb.updateZeroState token z source) := by
  unfold updateZeroState
  split
  · exact .refl lb
  · split
    · exact .refl lb
    · split
      · exact ⟨rfl, rfl, rfl, .of_eq rfl rfl rfl, .of_eq rfl, id, [], by simp, by simp⟩
      · split
        · exact .refl lb
        · exact calm_onFatalError token _ lb

theorem calm_updateZeroStates (config : Config) (token : Token) (lb : LastBlock) :
    Calm lb (lb.updateZeroStates config token) :=
  (calm_updateZeroState token _ "cache" lb).trans (calm_updateZeroState token _ "config" _)

theorem calm_saveIf (isChanged : Bool) (lb : LastBlock) : Calm lb (lb.saveIf isChanged) := by
  unfold saveIf saveState
  split
  · split
    · exact .refl lb
    · rename_i hd
      exact calm_emit (fun _ _ => not_not.1 hd) fun s hs => (Option.some.inj hs).symm
  · exact .refl lb

theorem calm_startAll (config : Config) (lb : LastBlock) : Calm lb (lb.startAll config) := by
  have hmc : Calm lb lb.startMcInfo := by
    unfold startMcInfo
    split <;> exact .of_eq rfl rfl rfl rfl
  have hci (a : LastBlock) : Calm a (a.startCheckInit config) := by
    unfold startCheckInit
    repeat' split
    all_goals exact .of_eq rfl rfl rfl rfl
  have hlb (a : LastBlock) : Calm a a.startGetLastBlock := by
    unfold startGetLastBlock
    split <;> exact .of_eq rfl rfl rfl rfl
  exact (hmc.trans (hci _)).trans (hlb _)

theorem calm_finishSync (lb : LastBlock) : Calm lb lb.finishSync := by
  unfold finishSync
  split
  · rename_i hd
    exact calm_answerAll fun s hs => ⟨(Except.ok.inj hs).symm, hd.2.2⟩
  · exact .refl lb

theorem calm_updateSyncState (lb : LastBlock) : Calm lb lb.updateSyncState := by
  unfold updateSyncState
  split
  · exact .refl lb
  · exact .trans (b := { lb with syncState := lb.getSyncState }) (.of_eq rfl rfl rfl rfl) (calm_emit (by simp [GivenAway, Output.state?]) (by simp [Output.state?]))

theorem calm_syncLoop (config : Config) (token : Token) (lb : LastBlock) : Calm lb (lb.syncLoop config token) := by
  unfold syncLoop
  split
  · exact calm_updateSyncState lb
  · exact (calm_updateZeroStates config token lb).trans ((calm_startAll config _).trans
      ((calm_finishSync _).trans (calm_updateSyncState _)))

/-! ## Evolution -/

theorem evolves_updateMcLastBlock (b : BlockIdExt) (lb : LastBlock) : Evolves lb (lb.updateMcLastBlock b).1 := by
  unfold updateMcLastBlock
  split
  · rename_i h
    simp only [Bool.and_eq_true, Bool.not_eq_true'] at h
    exact ⟨le_rfl, advances_of_replaces h.2, .refl _, fun hf => by simp [h.1] at hf, [], by simp, by simp⟩
  · exact .refl lb

theorem evolves_updateKeyBlock (chain : BlockProofChain) (lb : LastBlock) :
    Evolves lb (lb.updateKeyBlock chain).1 := by
  unfold updateKeyBlock updateMcLastKeyBlock
  split
  · split
    · rename_i h
      simp only [Bool.and_eq_true, Bool.not_eq_true'] at h
      exact ⟨le_rfl, .refl _, advances_of_replaces h.2, fun hf => by simp [h.1] at hf, [], by simp, by simp⟩
    · exact .refl lb
  · exact .refl lb

theorem evolves_updateInitBlock (b : BlockIdExt) (lb : LastBlock) : Evolves lb (lb.updateInitBlock b).1 := by
  unfold updateInitBlock
  split
  · rename_i h
    simp only [Bool.and_eq_true, Bool.not_eq_true'] at h
    exact ⟨le_rfl, .refl _, .refl _, fun hf => by simp [h.1.1] at hf, [], by simp, by simp⟩
  · exact .refl lb

theorem evolves_updateChainUtime (chain : BlockProofChain) (lb : LastBlock) :
    Evolves lb (lb.updateChainUtime chain) := by
  unfold updateChainUtime updateUtime
  split
  · split
    · rename_i h
      exact ⟨h.le, .refl _, .refl _, fun hf => ⟨hf, rfl, rfl, rfl⟩, [], by simp, by simp⟩
    · exact .refl lb
  · exact .refl lb

theorem evolves_updateState (chain : BlockProofChain) (lb : LastBlock) : Evolves lb (lb.updateState chain) := by
  have hseq (a : LastBlock) : Calm a (a.updateSeqnos chain.toBlk.seqno) := .of_eq rfl rfl rfl rfl
  exact (evolves_updateMcLastBlock chain.toBlk lb).trans ((hseq _).evolves.trans
    ((evolves_updateKeyBlock chain _).trans ((evolves_updateChainUtime chain _).trans (calm_saveIf _ _).evolves)))

theorem evolves_finishInitCheck (config : Config) (lb : LastBlock) : Evolves lb (lb.finishInitCheck config) :=
  .trans (b := { lb with checkInitBlockState := .done, initChecked := lb.initCheck }) (.of_eq rfl rfl rfl)
    ((evolves_updateInitBlock config.initBlockId _).trans (calm_saveIf _ _).evolves)

section

variable [McConfig]

theorem evolves_onBlockProof {config : Config} {lb lb' : LastBlock} {token : Token} {known : BlockIdExt}
    {r : Except Status PartialBlockProof} (h : lb.onBlockProof config token known r = some lb') : Evolves lb lb' := by
  unfold onBlockProof at h
  split at h
  · cases h
    exact .trans (b := { lb with getLastBlockState := .empty }) (.of_eq rfl rfl rfl)
      (calm_onSyncError token _ _).evolves
  · cases h
  · rename_i chain _
    cases h
    refine (evolves_updateState chain lb).trans ?_
    generalize lb.updateState chain = a
    split
    · exact .trans (b := { a with getLastBlockState := .done }) (.of_eq rfl rfl rfl)
        (calm_syncLoop config token _).evolves
    · exact .trans (b := a.doGetLastBlock) (.of_eq rfl rfl rfl) (calm_syncLoop config token _).evolves

theorem evolves_onInitBlockProof {config : Config} {lb lb' : LastBlock} {token : Token} {known target : BlockIdExt}
    {r : Except Status PartialBlockProof} (h : lb.onInitBlockProof config token known target r = some lb') :
    Evolves lb lb' := by
  unfold onInitBlockProof at h
  split at h
  · cases h
    refine .trans (b := { lb with checkInitBlockState := .empty }) (.of_eq rfl rfl rfl) ?_
    exact ((calm_onSyncError token _ _).trans (calm_syncLoop config token _)).evolves
  · cases h
  · rename_i chain _
    cases h
    refine .trans (b := lb.recordLinks chain) (.of_eq rfl rfl rfl) ?_
    refine (evolves_updateState chain _).trans ?_
    generalize (lb.recordLinks chain).updateState chain = a
    split
    · exact (evolves_finishInitCheck config a).trans (calm_syncLoop config token _).evolves
    · exact .trans (b := a.doCheckInitBlock chain.toBlk target) (.of_eq rfl rfl rfl)
        (calm_syncLoop config token _).evolves

omit [McConfig] in
theorem calm_onMasterchainInfo (config : Config) (token : Token) (r : Except Status MasterchainInfo) (lb : LastBlock) :
    Calm lb (lb.onMasterchainInfo config token r) := by
  unfold onMasterchainInfo
  split
  · rename_i info
    refine (calm_updateZeroState token info.init "masterchain info" lb).trans ?_
    generalize lb.updateZeroState token info.init "masterchain info" = a
    exact .trans (b := { a with getMcInfoState := .done, maxSeqno := max a.maxSeqno info.last.seqno })
      (.of_eq rfl rfl rfl rfl) (calm_syncLoop config token _)
  · exact .trans (b := { lb with getMcInfoState := .empty }) (.of_eq rfl rfl rfl rfl)
      ((calm_onSyncError token _ _).trans (calm_syncLoop config token _))

omit [McConfig] in
theorem calm_getLastBlock (config : Config) (token : Token) (lb : LastBlock) :
    Calm lb (lb.getLastBlock config token) := by
  unfold getLastBlock
  split
  · exact .trans (b := lb.issue) (.of_eq rfl rfl rfl rfl) (calm_emit (by simp [GivenAway, Output.state?]) (by simp [Output.state?]))
  · refine .trans (.of_eq ?_ ?_ ?_ ?_) (calm_syncLoop config token _) <;> unfold resetGetLastBlock <;> split <;> rfl

omit [McConfig] in
theorem calm_tearDown (token : Token) (lb : LastBlock) : Calm lb (lb.tearDown token) :=
  (calm_onSyncError token _ lb).trans (.of_eq rfl rfl rfl rfl)

theorem evolves_handle {config : Config} {lb lb' : LastBlock} {e : Event} {token : Token}
    (h : lb.handle config e token = some lb') : Evolves lb lb' := by
  cases e with
  | getLastBlock => cases h; exact (calm_getLastBlock config token lb).evolves
  | masterchainInfo r => cases h; exact (calm_onMasterchainInfo config token r lb).evolves
  | blockProof known r => exact evolves_onBlockProof h
  | initBlockProof known target r => exact evolves_onInitBlockProof h
  | tearDown => cases h; exact (calm_tearDown token lb).evolves

/-- The handler an event runs, and the state it runs on. -/
theorem step_cases {config : Config} {lb lb' : LastBlock} {e : Event × Token} (h : step config lb e = some lb') :
    (e.1.query = none ∧ lb.handle config e.1 e.2 = some lb') ∨
      ∃ q ∈ lb.inFlight, e.1.query = some q ∧ (lb.receive q).handle config e.1 e.2 = some lb' := by
  unfold step at h
  split at h
  · cases h
  · split at h
    · exact Or.inl ⟨‹_›, h⟩
    · split at h
      · exact Or.inr ⟨_, ‹_›, ‹_›, h⟩
      · cases h

/-- Every event: ids and time advance, freeze after a fatal error, and no state leaves too early. -/
theorem evolves_step {config : Config} {lb lb' : LastBlock} {e : Event × Token} (h : step config lb e = some lb') :
    Evolves lb lb' := by
  rcases step_cases h with ⟨-, h⟩ | ⟨q, -, -, h⟩
  · exact evolves_handle h
  · exact .trans (b := lb.receive q) (.of_eq rfl rfl rfl) (evolves_handle h)

/-! ## Trusted blocks -/

/-- A validated answer: a path of accepted links from the block asked for, the key block on it. -/
theorem processBlockProof_ok {token : Token} {known : BlockIdExt} {r : Except Status PartialBlockProof}
    {chain : BlockProofChain} (h : processBlockProof token known r = .ok chain) :
    Connects known chain.links chain.toBlk ∧ (chain.hasKeyBlock = true → Linked known chain.keyBlkid) := by
  obtain ⟨proof, -, h⟩ := bind_ok h
  obtain ⟨c, -, h⟩ := bind_ok (catchVm_ok_iff.1 (tryPrefix_ok_iff.1 h))
  obtain ⟨_, hfrom, h⟩ := bind_ok h
  obtain ⟨⟨hends, -⟩, -, -, hpath, hkey⟩ := BlockProofChain.validate_ok h
  rw [hends, not_not.1 (failIf_ok_iff.1 hfrom)] at hpath hkey
  exact ⟨hpath, hkey⟩

/-- Accepted links lead to the block from the cached key block or from the configured initial block. -/
def Trusted (config : Config) (cached : LastBlockState) (b : BlockIdExt) : Prop :=
  Linked cached.lastKeyBlockId b ∨ Linked config.initBlockId b

theorem Trusted.linked {config : Config} {cached : LastBlockState} {a b : BlockIdExt} (h : Trusted config cached a)
    (hab : Linked a b) : Trusted config cached b := h.imp (·.trans hab) (·.trans hab)

/-- Every block the actor knows or asks a proof from is trusted, and the check of the initial block has
walked from its start to the block it asks a proof from. -/
structure TrustInv (config : Config) (cached : LastBlockState) (lb : LastBlock) : Prop where
  lastBlockId : Trusted config cached lb.state.lastBlockId
  lastKeyBlockId : Trusted config cached lb.state.lastKeyBlockId
  forward : ∀ known, .getBlockProof known ∈ lb.inFlight → Trusted config cached known
  check : ∀ known target, .getBlockProofTo known target ∈ lb.inFlight → Trusted config cached known ∧
    ∃ c, lb.initCheck = some c ∧ c.target = target ∧ Connects c.start c.path known ∧
      (c.start = config.initBlockId ∨ c.target = config.initBlockId)

namespace TrustInv

variable {config : Config} {cached : LastBlockState} {a b : LastBlock}

/-- Parts of a handler that keep the ids, the check and send nothing. -/
theorem of_sub (h : TrustInv config cached a) (hl : b.state.lastBlockId = a.state.lastBlockId)
    (hk : b.state.lastKeyBlockId = a.state.lastKeyBlockId) (hc : b.initCheck = a.initCheck)
    (hq : ∀ q ∈ b.inFlight, q ∈ a.inFlight) : TrustInv config cached b :=
  ⟨hl ▸ h.lastBlockId, hk ▸ h.lastKeyBlockId, fun known hm => h.forward known (hq _ hm),
    fun known target hm => hc ▸ h.check known target (hq _ hm)⟩

theorem doGetLastBlock (h : TrustInv config cached a) : TrustInv config cached a.doGetLastBlock := by
  refine ⟨h.lastBlockId, h.lastKeyBlockId, fun known hm => ?_, fun known target hm => ?_⟩
  · rcases List.mem_append.1 hm with hm | hm
    · exact h.forward known hm
    · cases List.mem_singleton.1 hm
      exact h.lastKeyBlockId
  · rcases List.mem_append.1 hm with hm | hm
    · exact h.check known target hm
    · cases List.mem_singleton.1 hm

/-- A check sends its next query, when no other query of a check is in flight. -/
theorem doCheckInitBlock (h : TrustInv config cached a) {known target : BlockIdExt} {c : InitCheck}
    (hnone : ∀ k t, .getBlockProofTo k t ∉ a.inFlight) (ht : Trusted config cached known)
    (hc : a.initCheck = some c) (htarget : c.target = target) (hpath : Connects c.start c.path known)
    (hends : c.start = config.initBlockId ∨ c.target = config.initBlockId) :
    TrustInv config cached (a.doCheckInitBlock known target) := by
  refine ⟨h.lastBlockId, h.lastKeyBlockId, fun k hm => ?_, fun k t hm => ?_⟩
  · rcases List.mem_append.1 hm with hm | hm
    · exact h.forward k hm
    · cases List.mem_singleton.1 hm
  · rcases List.mem_append.1 hm with hm | hm
    · exact absurd hm (hnone k t)
    · cases List.mem_singleton.1 hm
      exact ⟨ht, c, hc, htarget, hpath, hends⟩

/-- A check starts between the initial block and the last key block, when none is under way. -/
theorem startInitCheck (h : TrustInv config cached a) (hnone : ∀ k t, .getBlockProofTo k t ∉ a.inFlight)
    {start target : BlockIdExt} (ht : Trusted config cached start)
    (hends : start = config.initBlockId ∨ target = config.initBlockId) :
    TrustInv config cached (a.startInitCheck start target) := by
  have hinit : TrustInv config cached { a with checkInitBlockState := .active, initCheck := some ⟨start, target, []⟩ } :=
    ⟨h.lastBlockId, h.lastKeyBlockId, h.forward, fun k t hm => absurd hm (hnone k t)⟩
  exact hinit.doCheckInitBlock hnone ht rfl rfl .nil hends

end TrustInv

omit [McConfig] in
/-- While the check of the initial block is not active, or its answer is being handled, none of its
queries is in flight. -/
theorem no_check_query {busy : Option QueryKind} {lb : LastBlock} (h : Balanced busy lb)
    (hidle : lb.checkInitBlockState ≠ .active ∨ busy = some .checkInit) (k t : BlockIdExt) :
    .getBlockProofTo k t ∉ lb.inFlight := by
  intro hm
  have hpos : 0 < lb.inFlightOf .checkInit := List.countP_pos_iff.2 ⟨_, hm, by simp [Query.kind]⟩
  have h0 := h .checkInit
  rcases hidle with hi | hi <;> simp [queryState, hi] at h0 <;> omega

theorem trustInv_startAll {config : Config} {cached : LastBlockState} {lb : LastBlock} (h : TrustInv config cached lb)
    (hb : Balanced none lb) : TrustInv config cached (lb.startAll config) := by
  have hmc : TrustInv config cached lb.startMcInfo := by
    unfold startMcInfo
    split
    · refine ⟨h.lastBlockId, h.lastKeyBlockId, fun k hm => ?_, fun k t hm => ?_⟩
      · rcases List.mem_append.1 hm with hm | hm
        · exact h.forward k hm
        · cases List.mem_singleton.1 hm
      · rcases List.mem_append.1 hm with hm | hm
        · exact h.check k t hm
        · cases List.mem_singleton.1 hm
    · exact h
  have hbm := balanced_startMcInfo hb
  unfold startAll
  generalize lb.startMcInfo = a at hmc hbm
  have hci : TrustInv config cached (a.startCheckInit config) := by
    unfold startCheckInit
    split
    · rename_i he
      have hnone := no_check_query hbm (Or.inl (by simp [he]))
      have hskip : TrustInv config cached { a with checkInitBlockState := .done } :=
        hmc.of_sub rfl rfl rfl fun _ => id
      split
      · exact hskip
      · split
        · exact hskip
        · split
          · exact hmc.startInitCheck hnone (Or.inr (.refl _)) (Or.inl rfl)
          · exact hmc.startInitCheck hnone hmc.lastKeyBlockId (Or.inr rfl)
    · exact hmc
  generalize a.startCheckInit config = b at hci
  unfold startGetLastBlock
  split
  · exact (TrustInv.of_sub (b := { b with getLastBlockState := .active }) hci rfl rfl rfl fun _ => id).doGetLastBlock
  · exact hci

/-- A part of a handler that neither changes ids nor sends. -/
theorem TrustInv.of_calm {config : Config} {cached : LastBlockState} {a b : LastBlock} (h : TrustInv config cached a)
    (hc : Calm a b) (hq : Quiet a b) : TrustInv config cached b :=
  h.of_sub hc.lastBlockId hc.lastKeyBlockId hq.initCheck fun _ hm => hq.queries.inFlight ▸ hm

theorem trustInv_syncLoop {config : Config} {cached : LastBlockState} {lb : LastBlock} (token : Token)
    (h : TrustInv config cached lb) (hb : Balanced none lb) : TrustInv config cached (lb.syncLoop config token) := by
  unfold syncLoop
  split
  · exact h.of_calm (calm_updateSyncState lb) (quiet_updateSyncState lb)
  · have hq := quiet_updateZeroStates config token lb
    have hz := h.of_calm (calm_updateZeroStates config token lb) hq
    have ha := trustInv_startAll hz (hq.queries.balanced hb)
    have hf := ha.of_calm (calm_finishSync _) (quiet_finishSync _)
    exact hf.of_calm (calm_updateSyncState _) (quiet_updateSyncState _)

theorem trustInv_updateMcLastBlock {config : Config} {cached : LastBlockState} {lb : LastBlock} {b : BlockIdExt}
    (h : TrustInv config cached lb) (hb : Trusted config cached b) :
    TrustInv config cached (lb.updateMcLastBlock b).1 := by
  unfold updateMcLastBlock
  split
  · exact ⟨hb, h.lastKeyBlockId, h.forward, h.check⟩
  · exact h

theorem trustInv_updateKeyBlock {config : Config} {cached : LastBlockState} {lb : LastBlock} {chain : BlockProofChain}
    (h : TrustInv config cached lb) (hk : chain.hasKeyBlock = true → Trusted config cached chain.keyBlkid) :
    TrustInv config cached (lb.updateKeyBlock chain).1 := by
  unfold updateKeyBlock updateMcLastKeyBlock
  split
  · split
    · exact ⟨h.lastBlockId, hk ‹_›, h.forward, h.check⟩
    · exact h
  · exact h

theorem trustInv_updateState {config : Config} {cached : LastBlockState} {lb : LastBlock} {chain : BlockProofChain}
    (h : TrustInv config cached lb) (ht : Trusted config cached chain.toBlk)
    (hk : chain.hasKeyBlock = true → Trusted config cached chain.keyBlkid) :
    TrustInv config cached (lb.updateState chain) := by
  have hutime (a : LastBlock) (ha : TrustInv config cached a) : TrustInv config cached (a.updateChainUtime chain) := by
    unfold updateChainUtime updateUtime
    split
    · split
      · exact ha.of_sub rfl rfl rfl fun _ => id
      · exact ha
    · exact ha
  have hseq (a : LastBlock) (ha : TrustInv config cached a) :
      TrustInv config cached (a.updateSeqnos chain.toBlk.seqno) := ha.of_sub rfl rfl rfl fun _ => id
  have hsave (a : LastBlock) (ha : TrustInv config cached a) (changed : Bool) :
      TrustInv config cached (a.saveIf changed) := ha.of_calm (calm_saveIf _ _) (quiet_saveIf _ _)
  exact hsave _ (hutime _ (trustInv_updateKeyBlock (hseq _ (trustInv_updateMcLastBlock h ht)) hk)) _

theorem trustInv_finishInitCheck {config : Config} {cached : LastBlockState} {lb : LastBlock}
    (h : TrustInv config cached lb) : TrustInv config cached (lb.finishInitCheck config) := by
  refine TrustInv.of_calm ?_ (calm_saveIf _ _) (quiet_saveIf _ _)
  unfold updateInitBlock
  split <;> exact h.of_sub rfl rfl rfl fun _ => id

theorem trustInv_onBlockProof {config : Config} {cached : LastBlockState} {lb lb' : LastBlock} {token : Token}
    {known : BlockIdExt} {r : Except Status PartialBlockProof} (h : lb.onBlockProof config token known r = some lb')
    (hi : TrustInv config cached lb) (hknown : Trusted config cached known) (hb : Balanced (some .lastBlock) lb)
    (hact : lb.getLastBlockState = .active) : TrustInv config cached lb' := by
  unfold onBlockProof at h
  split at h
  · cases h
    exact TrustInv.of_calm (a := { lb with getLastBlockState := .empty }) (hi.of_sub rfl rfl rfl fun _ => id)
      (calm_onSyncError token _ _) (quiet_onSyncError token _ _)
  · cases h
  · rename_i chain hchain
    cases h
    obtain ⟨hpath, hkey⟩ := processBlockProof_ok hchain
    have ha := trustInv_updateState hi (hknown.linked ⟨_, hpath⟩) fun hk => hknown.linked (hkey hk)
    have hq := quiet_updateState chain lb
    have hba := hq.queries.balanced hb
    have hacta := hq.queries.lastBlock.trans hact
    generalize lb.updateState chain = a at ha hba hacta
    split
    · refine trustInv_syncLoop token (ha.of_sub rfl rfl rfl fun _ => id)
        (hba.of_stop rfl (by simp [queryState]) fun k hk => ?_)
      cases k <;> first | rfl | exact absurd rfl hk
    · exact trustInv_syncLoop token ha.doGetLastBlock
        (hba.send_of_busy (q := .getBlockProof a.state.lastKeyBlockId) hacta)

/-- The check of the initial block after a validated chain: it has walked to the end of that chain. -/
theorem recordLinks_initCheck {config : Config} {lb : LastBlock} {known target : BlockIdExt} {chain : BlockProofChain}
    (hpath : Connects known chain.links chain.toBlk)
    (hc : ∃ c, lb.initCheck = some c ∧ c.target = target ∧ Connects c.start c.path known ∧
      (c.start = config.initBlockId ∨ c.target = config.initBlockId)) :
    ∃ c, (lb.recordLinks chain).initCheck = some c ∧ c.target = target ∧ Connects c.start c.path chain.toBlk ∧
      (c.start = config.initBlockId ∨ c.target = config.initBlockId) := by
  obtain ⟨c, hc, ht, hp, hends⟩ := hc
  exact ⟨{ c with path := c.path ++ chain.links }, by simp [recordLinks, hc], ht, hp.append hpath, hends⟩

theorem trustInv_onInitBlockProof {config : Config} {cached : LastBlockState} {lb lb' : LastBlock} {token : Token}
    {known target : BlockIdExt} {r : Except Status PartialBlockProof}
    (h : lb.onInitBlockProof config token known target r = some lb') (hi : TrustInv config cached lb)
    (hknown : Trusted config cached known)
    (hc : ∃ c, lb.initCheck = some c ∧ c.target = target ∧ Connects c.start c.path known ∧
      (c.start = config.initBlockId ∨ c.target = config.initBlockId))
    (hb : Balanced (some .checkInit) lb) (hact : lb.checkInitBlockState = .active) : TrustInv config cached lb' := by
  unfold onInitBlockProof at h
  split at h
  · cases h
    have hs := TrustInv.of_calm (a := { lb with checkInitBlockState := .empty }) (hi.of_sub rfl rfl rfl fun _ => id)
      (calm_onSyncError token (Status.withSuffix ‹Status› "(during check init block)") _) (quiet_onSyncError token _ _)
    refine trustInv_syncLoop token hs ((quiet_onSyncError token _ _).queries.balanced
      (hb.of_stop rfl (by simp [queryState]) fun k hk => ?_))
    cases k <;> first | rfl | exact absurd rfl hk
  · cases h
  · rename_i chain hchain
    cases h
    obtain ⟨hpath, hkey⟩ := processBlockProof_ok hchain
    have hto : Trusted config cached chain.toBlk := hknown.linked ⟨_, hpath⟩
    have hno := no_check_query hb (Or.inr rfl)
    have hr : TrustInv config cached (lb.recordLinks chain) :=
      ⟨hi.lastBlockId, hi.lastKeyBlockId, hi.forward, fun k t hm => absurd hm (hno k t)⟩
    have ha := trustInv_updateState hr hto fun hk => hknown.linked (hkey hk)
    have hq := quiet_updateState chain (lb.recordLinks chain)
    have hba : Balanced (some .checkInit) _ := hq.queries.balanced (a := lb.recordLinks chain) hb
    have hacta := hq.queries.checkInit.trans hact
    have hca := recordLinks_initCheck hpath hc
    rw [← hq.initCheck] at hca
    generalize (lb.recordLinks chain).updateState chain = a at ha hba hacta hca
    split
    · refine trustInv_syncLoop token (trustInv_finishInitCheck ha) ?_
      have hdone : Balanced none { a with checkInitBlockState := .done, initChecked := a.initCheck } :=
        hba.of_stop rfl (by simp [queryState]) fun k hk => by cases k <;> first | rfl | exact absurd rfl hk
      exact ((quiet_updateInitBlock config.initBlockId _).trans (quiet_saveIf _ _)).queries.balanced hdone
    · obtain ⟨c, hc, ht, hp, hends⟩ := hca
      exact trustInv_syncLoop token
        (ha.doCheckInitBlock (no_check_query hba (Or.inr rfl)) hto hc ht hp hends)
        (hba.send_of_busy (q := .getBlockProofTo chain.toBlk target) hacta)

theorem trustInv_onMasterchainInfo {config : Config} {cached : LastBlockState} {lb : LastBlock} (token : Token)
    (r : Except Status MasterchainInfo) (h : TrustInv config cached lb) (hb : Balanced (some .mcInfo) lb) :
    TrustInv config cached (lb.onMasterchainInfo config token r) := by
  unfold onMasterchainInfo
  split
  · rename_i info
    have hq := quiet_updateZeroState token info.init "masterchain info" lb
    have hz := h.of_calm (calm_updateZeroState token info.init "masterchain info" lb) hq
    have hzb := hq.queries.balanced hb
    generalize lb.updateZeroState token info.init "masterchain info" = a at hz hzb
    refine trustInv_syncLoop token (hz.of_sub rfl rfl rfl fun _ => id)
      (hzb.of_stop rfl (by simp [queryState]) fun k hk => ?_)
    cases k <;> first | rfl | exact absurd rfl hk
  · have hs := quiet_onSyncError token ‹Status› { lb with getMcInfoState := .empty }
    have ht := TrustInv.of_calm (a := { lb with getMcInfoState := .empty }) (h.of_sub rfl rfl rfl fun _ => id)
      (calm_onSyncError token ‹Status› _) hs
    refine trustInv_syncLoop token ht (hs.queries.balanced (hb.of_stop rfl (by simp [queryState]) fun k hk => ?_))
    cases k <;> first | rfl | exact absurd rfl hk

theorem trustInv_receive {config : Config} {cached : LastBlockState} {lb : LastBlock} (h : TrustInv config cached lb)
    (q : Query) : TrustInv config cached (lb.receive q) :=
  h.of_sub rfl rfl rfl fun _ hm => List.mem_of_mem_erase hm

/-- Every event keeps what is believed trusted. -/
theorem trustInv_step {config : Config} {cached : LastBlockState} {lb lb' : LastBlock} {e : Event × Token}
    (h : step config lb e = some lb') (hi : TrustInv config cached lb) (hq : QueryInv lb) :
    TrustInv config cached lb' := by
  obtain ⟨e, token⟩ := e
  rcases step_cases h with ⟨hnone, h⟩ | ⟨q, hm, hquery, h⟩
  · cases e with
    | getLastBlock =>
      cases h
      unfold getLastBlock
      split
      · exact hi.of_sub rfl rfl rfl fun _ => id
      · have hb : Balanced none lb.issue.resetGetLastBlock := balanced_resetGetLastBlock hq.balanced
        refine trustInv_syncLoop token (hi.of_sub ?_ ?_ ?_ ?_) hb
        all_goals unfold resetGetLastBlock; split
        all_goals first | rfl | exact fun _ => id
    | tearDown => cases h; exact hi.of_sub rfl rfl rfl fun _ => id
    | masterchainInfo r => cases hnone
    | blockProof known r => cases hnone
    | initBlockProof known target r => cases hnone
  · have he := trustInv_receive hi q
    obtain ⟨hact, hb⟩ := hq.balanced.receive hm
    cases e with
    | getLastBlock => cases hquery
    | tearDown => cases hquery
    | masterchainInfo r =>
      cases hquery
      cases h
      exact trustInv_onMasterchainInfo token r he hb
    | blockProof known r =>
      cases hquery
      exact trustInv_onBlockProof h he (hi.forward known hm) hb hact
    | initBlockProof known target r =>
      cases hquery
      obtain ⟨ht, hc⟩ := hi.check known target hm
      exact trustInv_onInitBlockProof h he ht hc hb hact

/-! ## States given away -/

omit [McConfig] in
theorem gives_updateState (chain : BlockProofChain) (lb : LastBlock) : Gives (·.lastBlockId) lb (lb.updateState chain) := by
  have ho : ((((lb.updateMcLastBlock chain.toBlk).1.updateSeqnos chain.toBlk.seqno).updateKeyBlock
      chain).1.updateChainUtime chain).out = lb.out := by
    unfold updateChainUtime updateUtime updateKeyBlock updateMcLastKeyBlock updateSeqnos updateMcLastBlock
    repeat' split
    all_goals rfl
  exact Gives.trans (.of_eq ho) (calm_saveIf _ _).gives (calm_saveIf _ _).lastBlockId

omit [McConfig] in
theorem gives_finishInitCheck (config : Config) (lb : LastBlock) :
    Gives (·.lastBlockId) lb (lb.finishInitCheck config) := by
  refine Gives.trans (.of_eq ?_) (calm_saveIf _ _).gives (calm_saveIf _ _).lastBlockId
  unfold updateInitBlock
  split <;> rfl

omit [McConfig] in
theorem lastBlockId_finishInitCheck (config : Config) (lb : LastBlock) :
    (lb.finishInitCheck config).state.lastBlockId = lb.state.lastBlockId := by
  refine (calm_saveIf _ _).lastBlockId.trans ?_
  unfold updateInitBlock
  split <;> rfl

/-- Every state an event gives away has the last block of the state after the event. -/
theorem gives_step {config : Config} {lb lb' : LastBlock} {e : Event × Token} (h : step config lb e = some lb') :
    Gives (·.lastBlockId) lb lb' := by
  obtain ⟨e, token⟩ := e
  rcases step_cases h with ⟨hnone, h⟩ | ⟨q, hm, hquery, h⟩
  · cases e with
    | getLastBlock => cases h; exact (calm_getLastBlock config token lb).gives
    | tearDown => cases h; exact (calm_tearDown token lb).gives
    | masterchainInfo r => cases hnone
    | blockProof known r => cases hnone
    | initBlockProof known target r => cases hnone
  · have hr : Gives (·.lastBlockId) lb (lb.receive q) := .of_eq rfl
    cases e with
    | getLastBlock => cases hquery
    | tearDown => cases hquery
    | masterchainInfo r =>
      cases h
      have hc := calm_onMasterchainInfo config token r (lb.receive q)
      exact hr.trans hc.gives hc.lastBlockId
    | blockProof known r =>
      change (lb.receive q).onBlockProof config token known r = some lb' at h
      unfold onBlockProof at h
      split at h
      · cases h
        have hc := calm_onSyncError token (Status.withSuffix ‹Status› "(during last block synchronization)")
          { lb.receive q with getLastBlockState := .empty }
        exact Gives.trans (.of_eq rfl) hc.gives hc.lastBlockId
      · cases h
      · rename_i chain _
        cases h
        have hu := gives_updateState chain (lb.receive q)
        generalize (lb.receive q).updateState chain = a at hu
        have hua := fun s hs => (hu s hs : (lb.receive q).Gave s ∨ _)
        split
        · have hc := calm_syncLoop config token { a with getLastBlockState := .done }
          exact Gives.trans (b := { a with getLastBlockState := .done }) hua hc.gives hc.lastBlockId
        · have hc := calm_syncLoop config token a.doGetLastBlock
          exact Gives.trans (b := a.doGetLastBlock) hua hc.gives hc.lastBlockId
    | initBlockProof known target r =>
      change (lb.receive q).onInitBlockProof config token known target r = some lb' at h
      unfold onInitBlockProof at h
      split at h
      · cases h
        have hc := (calm_onSyncError token (Status.withSuffix ‹Status› "(during check init block)")
          { lb.receive q with checkInitBlockState := .empty }).trans (calm_syncLoop config token _)
        exact Gives.trans (.of_eq rfl) hc.gives hc.lastBlockId
      · cases h
      · rename_i chain _
        cases h
        have hu := gives_updateState chain ((lb.receive q).recordLinks chain)
        generalize ((lb.receive q).recordLinks chain).updateState chain = a at hu
        have hua := fun s hs => (hu s hs : (lb.receive q).Gave s ∨ _)
        split
        · have hc := calm_syncLoop config token (a.finishInitCheck config)
          exact (Gives.trans hua (gives_finishInitCheck config a) (lastBlockId_finishInitCheck config a)).trans
            hc.gives hc.lastBlockId
        · have hc := calm_syncLoop config token (a.doCheckInitBlock chain.toBlk target)
          exact Gives.trans (b := a.doCheckInitBlock chain.toBlk target) hua hc.gives hc.lastBlockId

/-! ## Runs -/

theorem trustInv_create (config : Config) (cached : LastBlockState) :
    TrustInv config cached (create config cached) :=
  ⟨Or.inl (.refl _), Or.inl (.refl _), fun _ h => by simp [create] at h, fun _ _ h => by simp [create] at h⟩

theorem trustInv_run {config : Config} {cached : LastBlockState} {es : List (Event × Token)} {lb : LastBlock}
    (h : Run (Steps (step config)) (create config cached) es lb) : TrustInv config cached lb :=
  (h.inv (I := fun lb => TrustInv config cached lb ∧ QueryInv lb)
    ⟨trustInv_create config cached, queryInv_create config cached⟩
    fun _ _ _ hi hs => ⟨trustInv_step hs hi.1 hi.2, queryInv_step hs hi.2⟩).1

/-- Every state ever persisted or answered has a trusted last block. -/
theorem trusted_of_gave {config : Config} {cached : LastBlockState} {es : List (Event × Token)} {lb : LastBlock}
    (h : Run (Steps (step config)) (create config cached) es lb) :
    ∀ s, lb.Gave s → Trusted config cached s.lastBlockId := by
  refine (h.inv (I := fun lb => (∀ s, lb.Gave s → Trusted config cached s.lastBlockId) ∧
    TrustInv config cached lb ∧ QueryInv lb) ⟨fun s hs => by simp [Gave, create] at hs, trustInv_create config cached,
    queryInv_create config cached⟩ fun a e b ha hs => ?_).1
  have ht := trustInv_step hs ha.2.1 ha.2.2
  refine ⟨fun s hg => ?_, ht, queryInv_step hs ha.2.2⟩
  rcases gives_step hs s hg with hg | hg
  · exact ha.1 s hg
  · have hid : s.lastBlockId = b.state.lastBlockId := hg
    exact hid ▸ ht.lastBlockId

theorem givenAway_run {config : Config} {cached : LastBlockState} {es : List (Event × Token)} {lb : LastBlock}
    (h : Run (Steps (step config)) (create config cached) es lb) : ∀ o ∈ lb.out, GivenAway o := by
  refine h.inv (I := fun lb => ∀ o ∈ lb.out, GivenAway o) (by simp [create]) fun a e b ha hs o ho => ?_
  obtain ⟨outs, hout, houts⟩ := (evolves_step hs).out
  rw [hout] at ho
  exact (List.mem_append.1 ho).elim (ha o) (houts o)

/-- In every run: known blocks are linked to the cached key block or the initial block, a state leaves
the actor only when the initial block was checked, and every further event lets the time and the valid
block ids only advance, and changes no block id after a fatal error. -/
theorem lastBlock_sound_of_run {config : Config} {cached : LastBlockState} {es : List (Event × Token)}
    {lb : LastBlock} (h : Run (Steps (step config)) (create config cached) es lb) :
    (Trusted config cached lb.state.lastBlockId ∧ Trusted config cached lb.state.lastKeyBlockId) ∧
      (∀ o ∈ lb.out, GivenAway o) ∧
      ∀ e lb', step config lb e = some lb' →
        lb.state.utime ≤ lb'.state.utime ∧ Advances lb.state.lastBlockId lb'.state.lastBlockId ∧
        Advances lb.state.lastKeyBlockId lb'.state.lastKeyBlockId ∧
        (lb.hasFatalError = true → lb'.hasFatalError = true ∧ lb'.state.lastBlockId = lb.state.lastBlockId ∧
          lb'.state.lastKeyBlockId = lb.state.lastKeyBlockId ∧ lb'.state.initBlockId = lb.state.initBlockId) := by
  have ht := trustInv_run h
  refine ⟨⟨ht.lastBlockId, ht.lastKeyBlockId⟩, givenAway_run h, fun e lb' hs => ?_⟩
  have he := evolves_step hs
  exact ⟨he.utime, he.lastBlockId, he.lastKeyBlockId, he.frozen⟩

/-! ## The check of the initial block -/

omit [McConfig] in
theorem sameInit_updateState (chain : BlockProofChain) (lb : LastBlock) : SameInit lb (lb.updateState chain) := by
  have hlast : SameInit lb (lb.updateMcLastBlock chain.toBlk).1 := by
    unfold updateMcLastBlock
    split
    · exact .of_eq rfl rfl rfl
    · exact .refl lb
  have hseq (a : LastBlock) : SameInit a (a.updateSeqnos chain.toBlk.seqno) := .of_eq rfl rfl rfl
  have hkey (a : LastBlock) : SameInit a (a.updateKeyBlock chain).1 := by
    unfold updateKeyBlock updateMcLastKeyBlock
    split
    · split
      · exact .of_eq rfl rfl rfl
      · exact .refl a
    · exact .refl a
  have hutime (a : LastBlock) : SameInit a (a.updateChainUtime chain) := by
    unfold updateChainUtime updateUtime
    split
    · split
      · exact .of_eq rfl rfl rfl
      · exact .refl a
    · exact .refl a
  exact hlast.trans ((hseq _).trans ((hkey _).trans ((hutime _).trans (calm_saveIf _ _).init)))

theorem sameInit_onBlockProof {config : Config} {lb lb' : LastBlock} {token : Token} {known : BlockIdExt}
    {r : Except Status PartialBlockProof} (h : lb.onBlockProof config token known r = some lb') : SameInit lb lb' := by
  unfold onBlockProof at h
  split at h
  · cases h
    exact .trans (b := { lb with getLastBlockState := .empty }) (.of_eq rfl rfl rfl) (calm_onSyncError token _ _).init
  · cases h
  · rename_i chain _
    cases h
    refine (sameInit_updateState chain lb).trans ?_
    generalize lb.updateState chain = a
    split
    · exact .trans (b := { a with getLastBlockState := .done }) (.of_eq rfl rfl rfl) (calm_syncLoop config token _).init
    · exact .trans (b := a.doGetLastBlock) (.of_eq rfl rfl rfl) (calm_syncLoop config token _).init

/-- A finished check connects its ends, one of which is the initial block; before one is finished the
recorded initial block stays as it was cached, in the state and in every state given away. -/
structure CheckedInv (config : Config) (cached : LastBlockState) (lb : LastBlock) : Prop where
  checked : ∀ c, lb.initChecked = some c → Connects c.start c.path c.target ∧
    (c.start = config.initBlockId ∨ c.target = config.initBlockId)
  unchecked : lb.initChecked = none → lb.state.initBlockId = cached.initBlockId ∧
    ∀ s, lb.Gave s → s.initBlockId = cached.initBlockId

theorem CheckedInv.of_sameInit {config : Config} {cached : LastBlockState} {a b : LastBlock}
    (h : CheckedInv config cached a) (hi : SameInit a b) : CheckedInv config cached b := by
  refine ⟨fun c hc => h.checked c (hi.initChecked ▸ hc), fun hn => ?_⟩
  obtain ⟨hs, hsaved⟩ := h.unchecked (hi.initChecked ▸ hn)
  refine ⟨hi.initBlockId.trans hs, fun s hb => ?_⟩
  rcases hi.gives s hb with ha | ha
  · exact hsaved s ha
  · exact (ha.trans hi.initBlockId).trans hs

/-- Every accepted answer to the check of the initial block that says it is complete ends at the block
the check is about. -/
def EndsAtTarget (e : Event × Token) : Prop := match e.1 with
  | .initBlockProof known target r =>
    ∀ chain, processBlockProof e.2 known r = .ok chain → chain.complete = true → chain.toBlk = target
  | _ => True

theorem checkedInv_onInitBlockProof {config : Config} {cached : LastBlockState} {lb lb' : LastBlock} {token : Token}
    {known target : BlockIdExt} {r : Except Status PartialBlockProof}
    (h : lb.onInitBlockProof config token known target r = some lb') (hi : CheckedInv config cached lb)
    (hends : EndsAtTarget (.initBlockProof known target r, token))
    (hc : ∃ c, lb.initCheck = some c ∧ c.target = target ∧ Connects c.start c.path known ∧
      (c.start = config.initBlockId ∨ c.target = config.initBlockId)) : CheckedInv config cached lb' := by
  unfold onInitBlockProof at h
  split at h
  · cases h
    refine (hi.of_sameInit (b := { lb with checkInitBlockState := .empty }) (.of_eq rfl rfl rfl)).of_sameInit ?_
    exact ((calm_onSyncError token _ _).trans (calm_syncLoop config token _)).init
  · cases h
  · rename_i chain hchain
    cases h
    obtain ⟨hpath, -⟩ := processBlockProof_ok hchain
    have ha := (hi.of_sameInit (b := lb.recordLinks chain) (.of_eq rfl rfl rfl)).of_sameInit
      (sameInit_updateState chain _)
    have hca := recordLinks_initCheck hpath hc
    rw [← (quiet_updateState chain (lb.recordLinks chain)).initCheck] at hca
    generalize (lb.recordLinks chain).updateState chain = a at ha hca
    refine CheckedInv.of_sameInit ?_ (calm_syncLoop config token _).init
    split
    · rename_i hcomplete
      obtain ⟨c, hc, ht, hp, he⟩ := hca
      rw [hends chain hchain hcomplete, ← ht] at hp
      have hdone : (a.finishInitCheck config).initChecked = some c := by
        rw [← hc]
        refine ((calm_saveIf _ _).init.initChecked).trans ?_
        unfold updateInitBlock
        split <;> rfl
      refine ⟨fun c' hc' => ?_, fun hn => ?_⟩
      · cases hdone.symm.trans hc'
        exact ⟨hp, he⟩
      · cases hdone.symm.trans hn
    · exact ha.of_sameInit (.of_eq rfl rfl rfl)

theorem checkedInv_step {config : Config} {cached : LastBlockState} {lb lb' : LastBlock} {e : Event × Token}
    (h : step config lb e = some lb') (hends : EndsAtTarget e) (hi : CheckedInv config cached lb)
    (ht : TrustInv config cached lb) : CheckedInv config cached lb' := by
  obtain ⟨e, token⟩ := e
  rcases step_cases h with ⟨hnone, h⟩ | ⟨q, hm, hquery, h⟩
  · cases e with
    | getLastBlock => cases h; exact hi.of_sameInit (calm_getLastBlock config token lb).init
    | tearDown => cases h; exact hi.of_sameInit (calm_tearDown token lb).init
    | masterchainInfo r => cases hnone
    | blockProof known r => cases hnone
    | initBlockProof known target r => cases hnone
  · have hr : CheckedInv config cached (lb.receive q) := hi.of_sameInit (.of_eq rfl rfl rfl)
    cases e with
    | getLastBlock => cases hquery
    | tearDown => cases hquery
    | masterchainInfo r => cases h; exact hr.of_sameInit (calm_onMasterchainInfo config token r _).init
    | blockProof known r => exact hr.of_sameInit (sameInit_onBlockProof h)
    | initBlockProof known target r =>
      cases hquery
      exact checkedInv_onInitBlockProof h hr hends (ht.check known target hm).2

end

namespace Sample

open Block.Sample

theorem lastBlock_sound_afterFirst :
    @Trusted mcConfig config (cached .none) (afterFirst .none).state.lastBlockId :=
  (@lastBlock_sound_of_run mcConfig _ _ _ _ (run_afterFirst .none)).1.1

/-- An answer to the check of the initial block without any link, from the initial block to itself. -/
def emptyAnswer (complete : Bool) (target : BlockIdExt) : Event × Token :=
  (.initBlockProof config.initBlockId target (.ok ⟨complete, config.initBlockId, config.initBlockId, []⟩), {})

/-- The empty chain such an answer stands for. -/
theorem processBlockProof_emptyAnswer (complete : Bool) :
    @processBlockProof mcConfig {} config.initBlockId
      (.ok ⟨complete, config.initBlockId, config.initBlockId, []⟩) =
      .ok { fromBlk := config.initBlockId, toBlk := config.initBlockId, complete, valid := true } := by
  cases complete <;> rfl

/-- The actor after that answer to its first query of the check. -/
def afterEmptyAnswer (complete : Bool) (key : BlockIdExt) : LastBlock :=
  (@step mcConfig config (afterFirst key) (emptyAnswer complete key)).getD (afterFirst key)

/-- An id without a workchain stands for no block, and its number may go down. -/
theorem lastBlockId_seqno_decreases :
    ¬ ∀ (E : McConfig) (config : Config) (cached : LastBlockState) (es : List (Event × Token)) (lb lb' : LastBlock)
      (e : Event × Token), Run (Steps (@step E config)) (create config cached) es lb → @step E config lb e = some lb' →
      lb.state.lastBlockId.seqno ≤ lb'.state.lastBlockId.seqno := by
  intro h
  have := h mcConfig config (cached (block workchainInvalid 5)) _ _
    (afterEmptyAnswer false (block workchainInvalid 5)) (emptyAnswer false (block workchainInvalid 5))
    (run_afterFirst _) rfl
  revert this
  decide

theorem not_connects_nil {a b : BlockIdExt} (hne : a ≠ b) : ¬ @Connects mcConfig a [] b := by
  intro h
  generalize hl : ([] : List BlockProofLink) = l at h
  cases h with
  | nil => exact hne rfl
  | snoc _ _ => simp at hl

end Sample

end LastBlock

end TonWallet.Tonlib
