/-
The queries and promises of `LastBlock`: in every reachable state each sub-protocol has exactly one
query in flight while it is active and none otherwise, every promise is waiting or was answered,
never both and never twice, and nobody waits while nothing is in flight.
-/
import TonWallet.Tonlib.LastBlock

namespace TonWallet.Tonlib.LastBlock

open Lib TonWallet.Td TonWallet.Ton TonWallet.Block

/-! ## Vocabulary -/

def queryState (lb : LastBlock) : QueryKind → QueryState
  | .mcInfo => lb.getMcInfoState
  | .checkInit => lb.checkInitBlockState
  | .lastBlock => lb.getLastBlockState

/-- How many queries of a kind are in flight. -/
def inFlightOf (lb : LastBlock) (k : QueryKind) : Nat := lb.inFlight.countP (·.kind = k)

/-- The promises answered so far, in order. -/
def answered (lb : LastBlock) : List Nat := lb.out.filterMap fun o => match o.1 with
  | .answered p _ => some p
  | _ => none

/-- One query in flight for each active kind and none for the others, where the answer to a query of
kind `busy` is being handled. -/
def Balanced (busy : Option QueryKind) (lb : LastBlock) : Prop :=
  ∀ k, lb.inFlightOf k = if lb.queryState k = .active ∧ busy ≠ some k then 1 else 0

/-- Every promise ever passed was either answered once or is still waiting. -/
def Ledger (lb : LastBlock) : Prop := (lb.answered ++ lb.promises).Perm (List.range lb.issued)

/-- Someone waits only while a query is in flight. -/
def Attended (lb : LastBlock) : Prop := lb.promises ≠ [] → ∃ k, lb.queryState k = .active

/-- The queries of two states are the same. -/
structure SameQueries (lb lb' : LastBlock) : Prop where
  inFlight : lb'.inFlight = lb.inFlight
  mcInfo : lb'.getMcInfoState = lb.getMcInfoState
  checkInit : lb'.checkInitBlockState = lb.checkInitBlockState
  lastBlock : lb'.getLastBlockState = lb.getLastBlockState

namespace SameQueries

variable {a b c : LastBlock}

theorem refl (a : LastBlock) : SameQueries a a := ⟨rfl, rfl, rfl, rfl⟩

theorem trans (h : SameQueries a b) (h' : SameQueries b c) : SameQueries a c :=
  ⟨h'.inFlight.trans h.inFlight, h'.mcInfo.trans h.mcInfo, h'.checkInit.trans h.checkInit,
    h'.lastBlock.trans h.lastBlock⟩

theorem queryState (h : SameQueries a b) (k : QueryKind) : b.queryState k = a.queryState k := by
  cases k
  · exact h.mcInfo
  · exact h.checkInit
  · exact h.lastBlock

theorem balanced {busy : Option QueryKind} (h : SameQueries a b) (hb : Balanced busy a) : Balanced busy b := by
  intro k
  rw [h.queryState, ← hb k, inFlightOf, inFlightOf, h.inFlight]

end SameQueries

/-- What a part of a handler that sends nothing does to the queries and the promises. -/
structure Quiet (lb lb' : LastBlock) : Prop where
  queries : SameQueries lb lb'
  ledger : Ledger lb → Ledger lb'
  promises : lb'.promises = lb.promises ∨ lb'.promises = []
  initCheck : lb'.initCheck = lb.initCheck

namespace Quiet

variable {a b c : LastBlock}

theorem refl (a : LastBlock) : Quiet a a := ⟨.refl a, id, Or.inl rfl, rfl⟩

theorem trans (h : Quiet a b) (h' : Quiet b c) : Quiet a c := by
  refine ⟨h.queries.trans h'.queries, h'.ledger ∘ h.ledger, ?_, h'.initCheck.trans h.initCheck⟩
  rcases h'.promises with hp | hp
  · rw [hp]; exact h.promises
  · exact Or.inr hp

/-- A change of other fields is quiet. -/
theorem of_eq (hq : SameQueries a b) (ho : b.answered = a.answered) (hp : b.promises = a.promises)
    (hi : b.issued = a.issued) (hc : b.initCheck = a.initCheck) : Quiet a b :=
  ⟨hq, fun h => by unfold Ledger; rw [ho, hp, hi]; exact h, Or.inl hp, hc⟩

end Quiet

/-! ## The parts of the handlers -/

@[simp] theorem answered_emit_stateChanged (s : LastBlockState) (lb : LastBlock) :
    (lb.emit (.stateChanged s)).answered = lb.answered := by
  simp [answered, emit, List.filterMap_append]

@[simp] theorem answered_emit_syncStateChanged (s : LastBlockSyncState) (lb : LastBlock) :
    (lb.emit (.syncStateChanged s)).answered = lb.answered := by
  simp [answered, emit, List.filterMap_append]

@[simp] theorem answered_emit_answered (p : Nat) (r : Except Status LastBlockState) (lb : LastBlock) :
    (lb.emit (.answered p r)).answered = lb.answered ++ [p] := by
  simp [answered, emit, List.filterMap_append]

@[simp] theorem answered_answerAll (r : Except Status LastBlockState) (lb : LastBlock) :
    (lb.answerAll r).answered = lb.answered ++ lb.promises := by
  simp [answered, answerAll, List.filterMap_append, List.filterMap_map]

theorem quiet_answerAll (r : Except Status LastBlockState) (lb : LastBlock) : Quiet lb (lb.answerAll r) := by
  refine ⟨⟨rfl, rfl, rfl, rfl⟩, fun h => ?_, Or.inr rfl, rfl⟩
  unfold Ledger at h ⊢
  rw [answered_answerAll]
  simpa [answerAll] using h

theorem quiet_onSyncError (token : Token) (status : Status) (lb : LastBlock) :
    Quiet lb (lb.onSyncError token status) := quiet_answerAll _ lb

theorem quiet_onFatalError (token : Token) (status : Status) (lb : LastBlock) :
    Quiet lb (lb.onFatalError token status) :=
  .trans (b := { lb with fatalError := some status }) (.of_eq ⟨rfl, rfl, rfl, rfl⟩ rfl rfl rfl rfl)
    (quiet_onSyncError token status _)

theorem quiet_updateZeroState (token : Token) (z : ZeroStateIdExt) (source : String) (lb : LastBlock) :
    Quiet lb (lb.updateZeroState token z source) := by
  unfold updateZeroState
  split
  · exact .refl lb
  · split
    · exact .refl lb
    · split
      · exact .of_eq ⟨rfl, rfl, rfl, rfl⟩ rfl rfl rfl rfl
      · split
        · exact .refl lb
        · exact quiet_onFatalError token _ lb

theorem quiet_updateZeroStates (config : Config) (token : Token) (lb : LastBlock) :
    Quiet lb (lb.updateZeroStates config token) :=
  (quiet_updateZeroState token _ "cache" lb).trans (quiet_updateZeroState token _ "config" _)

theorem quiet_saveState (lb : LastBlock) : Quiet lb lb.saveState := by
  unfold saveState
  split
  · exact .refl lb
  · exact .of_eq ⟨rfl, rfl, rfl, rfl⟩ (answered_emit_stateChanged _ lb) rfl rfl rfl

theorem quiet_updateMcLastBlock (b : BlockIdExt) (lb : LastBlock) : Quiet lb (lb.updateMcLastBlock b).1 := by
  unfold updateMcLastBlock
  split
  · exact .of_eq ⟨rfl, rfl, rfl, rfl⟩ rfl rfl rfl rfl
  · exact .refl lb

theorem quiet_updateMcLastKeyBlock (b : BlockIdExt) (lb : LastBlock) : Quiet lb (lb.updateMcLastKeyBlock b).1 := by
  unfold updateMcLastKeyBlock
  split
  · exact .of_eq ⟨rfl, rfl, rfl, rfl⟩ rfl rfl rfl rfl
  · exact .refl lb

theorem quiet_updateInitBlock (b : BlockIdExt) (lb : LastBlock) : Quiet lb (lb.updateInitBlock b).1 := by
  unfold updateInitBlock
  split
  · exact .of_eq ⟨rfl, rfl, rfl, rfl⟩ rfl rfl rfl rfl
  · exact .refl lb

theorem quiet_updateUtime (utime : Int) (lb : LastBlock) : Quiet lb (lb.updateUtime utime) := by
  unfold updateUtime
  split
  · exact .of_eq ⟨rfl, rfl, rfl, rfl⟩ rfl rfl rfl rfl
  · exact .refl lb

theorem quiet_updateSyncState (lb : LastBlock) : Quiet lb lb.updateSyncState := by
  unfold updateSyncState
  split
  · exact .refl lb
  · exact .of_eq ⟨rfl, rfl, rfl, rfl⟩ (answered_emit_syncStateChanged _ _) rfl rfl rfl

theorem quiet_saveIf (isChanged : Bool) (lb : LastBlock) : Quiet lb (lb.saveIf isChanged) := by
  unfold saveIf
  split
  · exact quiet_saveState lb
  · exact .refl lb

theorem quiet_updateKeyBlock (chain : BlockProofChain) (lb : LastBlock) : Quiet lb (lb.updateKeyBlock chain).1 := by
  unfold updateKeyBlock
  split
  · exact quiet_updateMcLastKeyBlock _ lb
  · exact .refl lb

theorem quiet_updateChainUtime (chain : BlockProofChain) (lb : LastBlock) : Quiet lb (lb.updateChainUtime chain) := by
  unfold updateChainUtime
  split
  · exact quiet_updateUtime _ lb
  · exact .refl lb

theorem quiet_updateState (chain : BlockProofChain) (lb : LastBlock) : Quiet lb (lb.updateState chain) := by
  have hlast := quiet_updateMcLastBlock chain.toBlk lb
  have hseq (a : LastBlock) : Quiet a (a.updateSeqnos chain.toBlk.seqno) := .of_eq ⟨rfl, rfl, rfl, rfl⟩ rfl rfl rfl rfl
  exact hlast.trans ((hseq _).trans ((quiet_updateKeyBlock chain _).trans
    ((quiet_updateChainUtime chain _).trans (quiet_saveIf _ _))))

/-! ## Sending -/

theorem inFlightOf_send (q : Query) (lb : LastBlock) (k : QueryKind) :
    (lb.send q).inFlightOf k = lb.inFlightOf k + if q.kind = k then 1 else 0 := by
  simp [inFlightOf, send, List.countP_append, List.countP_cons]

/-- A sub-protocol that was not active becomes active and sends one query. -/
theorem Balanced.send_of_start {lb lb' : LastBlock} {q : Query} (h : Balanced none lb)
    (hidle : lb.queryState q.kind ≠ .active) (hfl : lb'.inFlight = lb.inFlight ++ [q])
    (hact : lb'.queryState q.kind = .active) (hrest : ∀ k, k ≠ q.kind → lb'.queryState k = lb.queryState k) :
    Balanced none lb' := by
  intro k
  have hcount : lb'.inFlightOf k = lb.inFlightOf k + if q.kind = k then 1 else 0 := by
    rw [← inFlightOf_send, inFlightOf, inFlightOf, hfl, send]
  rw [hcount, h k]
  by_cases hk : q.kind = k
  · subst hk; simp [hidle, hact]
  · simp [hk, hrest k (Ne.symm hk)]

/-- A sub-protocol whose answer is being handled sends its next query. -/
theorem Balanced.send_of_busy {lb : LastBlock} {q : Query} (h : Balanced (some q.kind) lb)
    (hact : lb.queryState q.kind = .active) : Balanced none (lb.send q) := by
  intro k
  have hs : (lb.send q).queryState k = lb.queryState k := by cases k <;> rfl
  rw [inFlightOf_send, h k, hs]
  by_cases hk : q.kind = k
  · subst hk; simp [hact]
  · simp [hk]

/-- A sub-protocol whose answer is being handled stops. -/
theorem Balanced.of_stop {lb lb' : LastBlock} {k : QueryKind} (h : Balanced (some k) lb)
    (hfl : lb'.inFlight = lb.inFlight) (hidle : lb'.queryState k ≠ .active)
    (hrest : ∀ k', k' ≠ k → lb'.queryState k' = lb.queryState k') : Balanced none lb' := by
  intro k'
  have hcount : lb'.inFlightOf k' = lb.inFlightOf k' := by rw [inFlightOf, inFlightOf, hfl]
  rw [hcount, h k']
  by_cases hk : k' = k
  · subst hk; simp [hidle]
  · simp [hrest k' hk, Ne.symm hk]

theorem balanced_startMcInfo {lb : LastBlock} (h : Balanced none lb) : Balanced none lb.startMcInfo := by
  unfold startMcInfo
  split
  · rename_i he
    exact h.send_of_start (q := .getMasterchainInfo) (by simp [queryState, Query.kind, he]) rfl rfl
      (fun k hk => by cases k <;> first | rfl | exact absurd rfl hk)
  · exact h

theorem balanced_startInitCheck {lb : LastBlock} (h : Balanced none lb) (he : lb.checkInitBlockState = .empty)
    (start target : BlockIdExt) : Balanced none (lb.startInitCheck start target) :=
  h.send_of_start (q := .getBlockProofTo start target) (by simp [queryState, Query.kind, he]) rfl rfl
    (fun k hk => by cases k <;> first | rfl | exact absurd rfl hk)

theorem balanced_startCheckInit {lb : LastBlock} (h : Balanced none lb) (config : Config) :
    Balanced none (lb.startCheckInit config) := by
  unfold startCheckInit
  split
  · rename_i he
    have hskip : Balanced none { lb with checkInitBlockState := .done } := by
      intro k
      have := h k
      cases k <;> simpa [inFlightOf, queryState, he] using this
    split
    · exact hskip
    · split
      · exact hskip
      · split
        · exact balanced_startInitCheck h he _ _
        · exact balanced_startInitCheck h he _ _
  · exact h

theorem balanced_startGetLastBlock {lb : LastBlock} (h : Balanced none lb) : Balanced none lb.startGetLastBlock := by
  unfold startGetLastBlock
  split
  · rename_i he
    exact h.send_of_start (q := .getBlockProof lb.state.lastKeyBlockId) (by simp [queryState, Query.kind, he.1]) rfl rfl
      (fun k hk => by cases k <;> first | rfl | exact absurd rfl hk)
  · exact h

/-! ## The loop -/

/-- The promises of two states and their answers are the same. -/
def SamePromises (lb lb' : LastBlock) : Prop :=
  lb'.answered = lb.answered ∧ lb'.promises = lb.promises ∧ lb'.issued = lb.issued

theorem SamePromises.ledger {lb lb' : LastBlock} : SamePromises lb lb' → Ledger lb → Ledger lb'
  | ⟨ho, hp, hi⟩, h => by unfold Ledger; rw [ho, hp, hi]; exact h

theorem samePromises_startMcInfo (lb : LastBlock) : SamePromises lb lb.startMcInfo := by
  unfold startMcInfo
  split <;> exact ⟨rfl, rfl, rfl⟩

theorem samePromises_startCheckInit (config : Config) (lb : LastBlock) : SamePromises lb (lb.startCheckInit config) := by
  unfold startCheckInit
  repeat' split
  all_goals exact ⟨rfl, rfl, rfl⟩

theorem samePromises_startGetLastBlock (lb : LastBlock) : SamePromises lb lb.startGetLastBlock := by
  unfold startGetLastBlock
  split <;> exact ⟨rfl, rfl, rfl⟩

theorem ledger_startAll (config : Config) {lb : LastBlock} (h : Ledger lb) : Ledger (lb.startAll config) :=
  (samePromises_startGetLastBlock _).ledger
    ((samePromises_startCheckInit config _).ledger ((samePromises_startMcInfo lb).ledger h))

theorem balanced_startAll (config : Config) {lb : LastBlock} (h : Balanced none lb) : Balanced none (lb.startAll config) :=
  balanced_startGetLastBlock (balanced_startCheckInit (balanced_startMcInfo h) config)

theorem startMcInfo_ne_empty (lb : LastBlock) : lb.startMcInfo.getMcInfoState ≠ .empty := by
  unfold startMcInfo
  split
  · simp [send]
  · assumption

theorem startCheckInit_ne_empty (config : Config) (lb : LastBlock) : (lb.startCheckInit config).checkInitBlockState ≠ .empty := by
  unfold startCheckInit
  split
  · repeat' split
    all_goals simp [startInitCheck, doCheckInitBlock, send]
  · assumption

theorem startCheckInit_getMcInfoState (config : Config) (lb : LastBlock) :
    (lb.startCheckInit config).getMcInfoState = lb.getMcInfoState := by
  unfold startCheckInit
  repeat' split
  all_goals rfl

theorem startGetLastBlock_states (lb : LastBlock) :
    lb.startGetLastBlock.getMcInfoState = lb.getMcInfoState ∧
      lb.startGetLastBlock.checkInitBlockState = lb.checkInitBlockState := by
  unfold startGetLastBlock
  split <;> exact ⟨rfl, rfl⟩

/-- After the starts some sub-protocol is active, or all three are done. -/
theorem active_or_done_startAll (config : Config) (lb : LastBlock) :
    (∃ k, (lb.startAll config).queryState k = .active) ∨
      ((lb.startAll config).getMcInfoState = .done ∧ (lb.startAll config).getLastBlockState = .done ∧
        (lb.startAll config).checkInitBlockState = .done) := by
  have hmc : (lb.startAll config).getMcInfoState ≠ .empty := by
    rw [startAll, (startGetLastBlock_states _).1, startCheckInit_getMcInfoState]
    exact startMcInfo_ne_empty lb
  have hci : (lb.startAll config).checkInitBlockState ≠ .empty := by
    rw [startAll, (startGetLastBlock_states _).2]
    exact startCheckInit_ne_empty config _
  -- the synchronization forward may wait for the check, which is active then
  have hlb : (lb.startAll config).getLastBlockState = .empty → (lb.startAll config).checkInitBlockState ≠ .done := by
    unfold startAll
    generalize lb.startMcInfo.startCheckInit config = a
    unfold startGetLastBlock doGetLastBlock send
    split
    · simp
    · rename_i hn
      exact fun he hd => hn ⟨he, hd⟩
  generalize lb.startAll config = a at hmc hci hlb
  rcases hm : a.getMcInfoState with _ | _ | _
  · exact absurd hm hmc
  · exact Or.inl ⟨.mcInfo, hm⟩
  · rcases hc : a.checkInitBlockState with _ | _ | _
    · exact absurd hc hci
    · exact Or.inl ⟨.checkInit, hc⟩
    · rcases hl : a.getLastBlockState with _ | _ | _
      · exact absurd hc (hlb hl)
      · exact Or.inl ⟨.lastBlock, hl⟩
      · exact Or.inr ⟨rfl, rfl, rfl⟩

theorem quiet_finishSync (lb : LastBlock) : Quiet lb lb.finishSync := by
  unfold finishSync
  split
  · exact quiet_answerAll _ lb
  · exact .refl lb

/-- The invariant of the queries and promises. -/
structure QueryInv (lb : LastBlock) : Prop where
  balanced : Balanced none lb
  ledger : Ledger lb
  attended : Attended lb

theorem Attended.of_quiet {lb lb' : LastBlock} (h : Attended lb) (hq : Quiet lb lb') : Attended lb' := by
  intro hne
  rcases hq.promises with hp | hp
  · obtain ⟨k, hk⟩ := h (hp ▸ hne)
    exact ⟨k, by rw [hq.queries.queryState, hk]⟩
  · exact absurd hp hne

theorem queryInv_syncLoop {config : Config} {lb : LastBlock} (token : Token) (hb : Balanced none lb) (hl : Ledger lb) :
    QueryInv (lb.syncLoop config token) := by
  unfold syncLoop
  split
  · rename_i hnil
    have hq := quiet_updateSyncState lb
    refine ⟨hq.queries.balanced hb, hq.ledger hl, Attended.of_quiet (fun hne => ?_) hq⟩
    exact absurd (List.isEmpty_iff.1 hnil) hne
  · have hz := quiet_updateZeroStates config token lb
    have ha := balanced_startAll config (hz.queries.balanced hb)
    have hla := ledger_startAll config (hz.ledger hl)
    have hdone := active_or_done_startAll config (lb.updateZeroStates config token)
    generalize (lb.updateZeroStates config token).startAll config = a at ha hla hdone
    have hf := quiet_finishSync a
    have hu := quiet_updateSyncState a.finishSync
    have hatt : Attended a.finishSync := by
      intro hne
      rcases hdone with ⟨k, hk⟩ | hdone
      · exact ⟨k, by rw [hf.queries.queryState, hk]⟩
      · exact absurd (by unfold finishSync; rw [if_pos hdone]; rfl) hne
    exact ⟨hu.queries.balanced (hf.queries.balanced ha), hu.ledger (hf.ledger hla), hatt.of_quiet hu⟩

/-! ## The handlers -/

theorem ledger_issue_answered {lb : LastBlock} (h : Ledger lb) (r : Except Status LastBlockState) :
    Ledger (lb.issue.emit (.answered lb.issued r)) := by
  unfold Ledger at h ⊢
  rw [answered_emit_answered]
  show (lb.answered ++ [lb.issued] ++ lb.promises).Perm (List.range (lb.issued + 1))
  rw [List.range_succ, List.append_assoc]
  exact (List.perm_append_comm.append_left _).trans (by rw [← List.append_assoc]; exact h.append_right _)

theorem ledger_issue_pushPromise {lb : LastBlock} (h : Ledger lb) :
    Ledger (lb.issue.resetGetLastBlock.pushPromise lb.issued) := by
  unfold Ledger at h ⊢
  have ho : (lb.issue.resetGetLastBlock.pushPromise lb.issued).answered = lb.answered := by
    unfold resetGetLastBlock; split <;> rfl
  have hp : (lb.issue.resetGetLastBlock.pushPromise lb.issued).promises = lb.promises ++ [lb.issued] := by
    unfold resetGetLastBlock; split <;> rfl
  have hi : (lb.issue.resetGetLastBlock.pushPromise lb.issued).issued = lb.issued + 1 := by
    unfold resetGetLastBlock; split <;> rfl
  rw [ho, hp, hi, List.range_succ, ← List.append_assoc]
  exact h.append_right _

theorem balanced_resetGetLastBlock {lb : LastBlock} (h : Balanced none lb) : Balanced none lb.resetGetLastBlock := by
  unfold resetGetLastBlock
  split
  · rename_i hd
    intro k
    have := h k
    cases k <;> simpa [inFlightOf, queryState, hd.2] using this
  · exact h

theorem queryInv_getLastBlock {config : Config} {lb : LastBlock} (token : Token) (h : QueryInv lb) :
    QueryInv (lb.getLastBlock config token) := by
  unfold getLastBlock
  split
  · exact ⟨h.balanced, ledger_issue_answered h.ledger _, h.attended⟩
  · have hb : Balanced none lb.issue := h.balanced
    exact queryInv_syncLoop token (balanced_resetGetLastBlock hb) (ledger_issue_pushPromise h.ledger)

theorem queryInv_onMasterchainInfo {config : Config} {lb : LastBlock} (token : Token) (r : Except Status MasterchainInfo)
    (hb : Balanced (some .mcInfo) lb) (hl : Ledger lb) : QueryInv (lb.onMasterchainInfo config token r) := by
  unfold onMasterchainInfo
  split
  · rename_i info
    have hq := quiet_updateZeroState token info.init "masterchain info" lb
    refine queryInv_syncLoop token ?_ (hq.ledger hl)
    refine (hq.queries.balanced hb).of_stop rfl (by simp [queryState]) (fun k hk => ?_)
    cases k <;> first | rfl | exact absurd rfl hk
  · have hq := quiet_onSyncError token ‹Status› { lb with getMcInfoState := .empty }
    refine queryInv_syncLoop token (hq.queries.balanced (hb.of_stop rfl (by simp [queryState]) fun k hk => ?_))
      (hq.ledger hl)
    cases k <;> first | rfl | exact absurd rfl hk

theorem queryInv_tearDown {lb : LastBlock} (token : Token) (h : QueryInv lb) : QueryInv (lb.tearDown token) := by
  have hq := quiet_onSyncError token TonlibError.cancelled lb
  exact ⟨hq.queries.balanced h.balanced, hq.ledger h.ledger, fun hne => absurd rfl hne⟩

section

variable [McConfig]

theorem queryInv_onBlockProof {config : Config} {lb lb' : LastBlock} {token : Token} {known : BlockIdExt}
    {r : Except Status PartialBlockProof} (h : lb.onBlockProof config token known r = some lb')
    (hb : Balanced (some .lastBlock) lb) (hact : lb.getLastBlockState = .active) (hl : Ledger lb) : QueryInv lb' := by
  unfold onBlockProof at h
  split at h
  · -- the error exit does not enter the loop, but it has answered everyone
    cases h
    have hq := quiet_onSyncError token (Status.withSuffix ‹Status› "(during last block synchronization)")
      { lb with getLastBlockState := .empty }
    refine ⟨hq.queries.balanced (hb.of_stop rfl (by simp [queryState]) fun k hk => ?_), hq.ledger hl,
      fun hne => absurd rfl hne⟩
    cases k <;> first | rfl | exact absurd rfl hk
  · cases h
  · rename_i chain _
    cases h
    have hq := quiet_updateState chain lb
    generalize lb.updateState chain = a at hq
    have ha : Balanced (some .lastBlock) a := hq.queries.balanced hb
    split
    · refine queryInv_syncLoop token (ha.of_stop rfl (by simp [queryState]) fun k hk => ?_) (hq.ledger hl)
      cases k <;> first | rfl | exact absurd rfl hk
    · exact queryInv_syncLoop token
        (ha.send_of_busy (q := .getBlockProof a.state.lastKeyBlockId) (hq.queries.lastBlock.trans hact)) (hq.ledger hl)

theorem queryInv_onInitBlockProof {config : Config} {lb lb' : LastBlock} {token : Token} {known target : BlockIdExt}
    {r : Except Status PartialBlockProof} (h : lb.onInitBlockProof config token known target r = some lb')
    (hb : Balanced (some .checkInit) lb) (hact : lb.checkInitBlockState = .active) (hl : Ledger lb) : QueryInv lb' := by
  unfold onInitBlockProof at h
  split at h
  · cases h
    have hq := quiet_onSyncError token (Status.withSuffix ‹Status› "(during check init block)")
      { lb with checkInitBlockState := .empty }
    refine queryInv_syncLoop token (hq.queries.balanced (hb.of_stop rfl (by simp [queryState]) fun k hk => ?_))
      (hq.ledger hl)
    cases k <;> first | rfl | exact absurd rfl hk
  · cases h
  · rename_i chain _
    cases h
    have hq := quiet_updateState chain (lb.recordLinks chain)
    generalize (lb.recordLinks chain).updateState chain = a at hq
    have ha : Balanced (some .checkInit) a := hq.queries.balanced hb
    split
    · have hdone : Balanced none { a with checkInitBlockState := .done, initChecked := a.initCheck } :=
        ha.of_stop rfl (by simp [queryState]) fun k hk => by cases k <;> first | rfl | exact absurd rfl hk
      have hf : Quiet { a with checkInitBlockState := .done, initChecked := a.initCheck } (a.finishInitCheck config) :=
        (quiet_updateInitBlock config.initBlockId _).trans (quiet_saveIf _ _)
      exact queryInv_syncLoop token (hf.queries.balanced hdone) (hf.ledger (hq.ledger hl))
    · exact queryInv_syncLoop token
        (ha.send_of_busy (q := .getBlockProofTo chain.toBlk target) (hq.queries.checkInit.trans hact)) (hq.ledger hl)

end

/-! ## Steps and runs -/

/-- Taking an answered query out of the queries in flight: its kind was active, and none is left of it. -/
theorem Balanced.receive {lb : LastBlock} {q : Query} (h : Balanced none lb) (hq : q ∈ lb.inFlight) :
    lb.queryState q.kind = .active ∧ Balanced (some q.kind) (lb.receive q) := by
  have hpos : 0 < lb.inFlightOf q.kind := List.countP_pos_iff.2 ⟨q, hq, by simp⟩
  have hact : lb.queryState q.kind = .active := by
    by_contra hne
    simp [h q.kind, hne] at hpos
  refine ⟨hact, fun k => ?_⟩
  have hk := h k
  have hs : (lb.receive q).queryState k = lb.queryState k := by cases k <;> rfl
  have hc : (lb.receive q).inFlightOf k = lb.inFlightOf k - if q.kind = k then 1 else 0 := by
    simp only [inFlightOf, LastBlock.receive]
    rw [List.countP_erase]
    simp [hq]
  rw [hc, hk, hs]
  by_cases hqk : q.kind = k
  · subst hqk; simp [hact]
  · simp [hqk]

section

variable [McConfig]

/-- Every event keeps the invariant. -/
theorem queryInv_step {config : Config} {lb lb' : LastBlock} {e : Event × Token} (h : step config lb e = some lb')
    (hi : QueryInv lb) : QueryInv lb' := by
  obtain ⟨e, token⟩ := e
  unfold step at h
  split at h
  · cases h
  · cases e with
    | getLastBlock => cases h; exact queryInv_getLastBlock token hi
    | tearDown => cases h; exact queryInv_tearDown token hi
    | masterchainInfo r =>
      simp only [Event.query] at h
      split at h
      · rename_i hq
        cases h
        exact queryInv_onMasterchainInfo token r (hi.balanced.receive hq).2 hi.ledger
      · cases h
    | blockProof known r =>
      simp only [Event.query] at h
      split at h
      · rename_i hq
        obtain ⟨hact, hb⟩ := hi.balanced.receive hq
        exact queryInv_onBlockProof h hb hact hi.ledger
      · cases h
    | initBlockProof known target r =>
      simp only [Event.query] at h
      split at h
      · rename_i hq
        obtain ⟨hact, hb⟩ := hi.balanced.receive hq
        exact queryInv_onInitBlockProof h hb hact hi.ledger
      · cases h

omit [McConfig] in
theorem queryInv_create (config : Config) (cached : LastBlockState) : QueryInv (create config cached) := by
  refine ⟨fun k => ?_, ?_, fun h => absurd rfl h⟩
  · cases k <;> rfl
  · exact List.Perm.refl _

theorem queryInv_run {config : Config} {cached : LastBlockState} {es : List (Event × Token)} {lb : LastBlock}
    (h : Run (Steps (step config)) (create config cached) es lb) : QueryInv lb :=
  h.inv (queryInv_create config cached) fun _ _ _ hi hs => queryInv_step hs hi

/-- In every reachable state each kind of query has one request in flight while it is active and none
otherwise, someone waits only while something is in flight, and every promise ever passed was either
answered, once, or waits. -/
theorem queries_and_promises_of_run {config : Config} {cached : LastBlockState} {es : List (Event × Token)}
    {lb : LastBlock} (h : Run (Steps (step config)) (create config cached) es lb) :
    (∀ k, lb.inFlightOf k = if lb.queryState k = .active then 1 else 0) ∧ (lb.promises ≠ [] → lb.inFlight ≠ []) ∧
      (lb.answered ++ lb.promises).Nodup ∧ ∀ p, p ∈ lb.answered ∨ p ∈ lb.promises ↔ p < lb.issued := by
  obtain ⟨hb, hl, ha⟩ := queryInv_run h
  refine ⟨fun k => by simpa using hb k, fun hne hnil => ?_, ?_, fun p => ?_⟩
  · obtain ⟨k, hk⟩ := ha hne
    have h1 := hb k
    simp [hk, inFlightOf, hnil] at h1
  · exact hl.nodup_iff.2 List.nodup_range
  · rw [← List.mem_append, hl.mem_iff, List.mem_range]

end

/-! ## A small network -/

namespace Sample

open Block.Sample

/-- The masterchain block with a number, of no particular content. -/
def block (workchain : Int32) (seqno : UInt32) : BlockIdExt := ⟨⟨workchain, shardIdAll, seqno⟩, 0, 0⟩

def config : Config where
  zeroStateId := block masterchainId 0
  initBlockId := block masterchainId 3

/-- A cached state with a last key block. -/
def cached (key : BlockIdExt) : LastBlockState where
  zeroStateId := configZeroState config
  lastKeyBlockId := key
  lastBlockId := key
  utime := 0
  initBlockId := .none
  vertSeqno := 0

/-- The actor after its first promise. -/
def afterFirst (key : BlockIdExt) : LastBlock := (create config (cached key)).getLastBlock config {}

theorem run_afterFirst (key : BlockIdExt) :
    Run (Steps (@step mcConfig config)) (create config (cached key)) [(.getLastBlock, {})] (afterFirst key) :=
  .single rfl

theorem queries_and_promises_afterFirst :
    (∀ k, (afterFirst .none).inFlightOf k = if (afterFirst .none).queryState k = .active then 1 else 0) ∧
      (afterFirst .none).inFlight ≠ [] := by
  have h := @queries_and_promises_of_run mcConfig _ _ _ _ (run_afterFirst .none)
  exact ⟨h.1, h.2.1 (by decide)⟩

end Sample

end TonWallet.Tonlib.LastBlock
