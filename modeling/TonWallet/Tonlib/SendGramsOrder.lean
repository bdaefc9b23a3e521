/-
`GenericCreateSendGrams` for all orders of its answers: until one of them fails or all are there the actor has stored
what has arrived, whatever came first, so that the loop ends with the same state and the promise is set there.
-/
import TonWallet.Tonlib.SendGramsAmount

namespace TonWallet.Tonlib.SendGrams

open Lib TonWallet.Td TonWallet.Vm TonWallet.Block TonWallet.SmcEnvelope Crypto Contracts

def Asked.isDestination : Asked → Bool
  | .destinationState _ => true
  | _ => false

section

variable [Contracts]

namespace GenericCreateSendGrams

/-! ## What is claimed -/

/-- The error of an answer. -/
def errorOf {α : Type} : Except Status α → Option Status
  | .error s => some s
  | .ok _ => none

/-- What is stored of an answer to a query for a destination. -/
def checked (world : World) (g : GenericCreateSendGrams) (i : Nat) : Except Status AccountState := do
  let state ← world.destination i
  g.checkDestination state

/-- The error that an answer ends the actor with. -/
def failure (world : World) (g : GenericCreateSendGrams) : Asked → Option Status
  | .privateKey => errorOf world.privateKey
  | .sourceState => errorOf world.source
  | .destinationState i => errorOf (g.checked world i)

/-- An answer is an error, or the state of an account that nothing is sent to. -/
def Fails (world : World) (g : GenericCreateSendGrams) (asked : Asked) : Prop := ∃ s, g.failure world asked = some s

/-- The gifts that a query carries: the wallet's message is made of them, or it is no wallet that is asked. -/
inductive Carries (g : GenericCreateSendGrams) (q : RawQuery AccountState) : List Gift → Prop
  | gifts {key : PrivateKey} {validUntil : UInt32} {gifts : List Gift}
    (made : makeAGiftMessage q.source.walletType q.source.getSmcState key validUntil gifts = .ok q.messageBody) :
    Carries g q gifts
  | dns (h : q.source.walletType = .manualDns) : Carries g q []
  | channel (h : q.source.walletType = .paymentChannel) : Carries g q []
  | config (h : g.rwalletAction = true) : Carries g q []

/-- No destination of the request is frozen or, unless that is allowed, the bounceable address of an account without
code; and the query's gifts are for the destinations, not bounceable where there is no code. -/
structure Safe (world : World) (g : GenericCreateSendGrams) (q : RawQuery AccountState) : Prop where
  accepted : ∀ i < g.actions.length, ∃ state, world.destination i = .ok state ∧ state.isFrozen = false ∧
    (state.walletType = .empty → state.address.bounceable = true → g.allowSendToUninited = true)
  carried : ∃ gifts, g.Carries q gifts ∧ ∀ i gift, gifts[i]? = some gift → ∃ state, world.destination i = .ok state ∧
    gift.destination.workchain = state.address.workchain ∧ gift.destination.addr = state.address.addr ∧
    (state.walletType = .empty → gift.destination.bounceable = false)

/-- What is claimed of the actor after some answers. -/
structure Answered (world : World) (answer : Except Status (RawQuery AccountState)) (order : List Asked)
    (g : GenericCreateSendGrams) : Prop where
  atMostOnce : g.answers.length ≤ 1
  atLeastOnce : g.inFlight = [] → g.answers.length = 1
  notBefore : g.answers ≠ [] → g.inFlight = [] ∨ ∃ asked ∈ order, g.Fails world asked
  same : (∀ asked ∈ order, ¬ g.Fails world asked) → g.inFlight = [] → g.answers = [answer]
  safe : ∀ q, .ok q ∈ g.answers → g.Safe world q

/-- In whatever order the answers arrive, the promise is set once, when all are there or one has failed, and to the same
if none fails; and its query is safe. -/
def AnswersOnce (memory : Fin 36 → UInt8) (query : CreateQuery) (world : World) : Prop :=
  ∃ answer, ∀ order g, Run (Steps (step world)) (startUp memory query world.random) order g → g.Answered world answer order

/-! ## The states while nothing has failed -/

/-- The queries that are sent. -/
def Sends (g : GenericCreateSendGrams) : Asked → Prop
  | .privateKey => g.hasPrivateKey = true
  | .sourceState => True
  | .destinationState i => i < g.actions.length

/-- The queries that have not been answered. -/
def missing (g : GenericCreateSendGrams) (order : List Asked) : List Asked := g.inFlight.filter (· ∉ order)

/-- The actor after some answers, none of which failed. -/
def stored (world : World) (g : GenericCreateSendGrams) (order : List Asked) : GenericCreateSendGrams := { g with
  privateKey := if .privateKey ∈ order then world.privateKey.toOption else none
  source := if .sourceState ∈ order then world.source.toOption.map g.guessType else none
  destinations := (List.range g.actions.length).map fun i =>
    if .destinationState i ∈ order then (g.checked world i).toOption else none
  destinationsLeft := (g.missing order).countP Asked.isDestination
  inFlight := g.missing order }

/-- The actor when everything has arrived. -/
def complete (world : World) (g : GenericCreateSendGrams) : GenericCreateSendGrams := g.stored world g.inFlight

/-- What starting up leaves. -/
structure Started (query : CreateQuery) (g : GenericCreateSendGrams) : Prop where
  query_eq : g.query = query
  hasPrivateKey_eq : g.hasPrivateKey = query.privateKey.isSome
  privateKey_eq : g.privateKey = none
  source_eq : g.source = none
  destinations_eq : g.destinations = List.replicate g.actions.length none
  destinationsLeft_eq : g.destinationsLeft = g.actions.length
  inFlight_eq : g.inFlight = (if g.hasPrivateKey then [.privateKey] else []) ++ .sourceState ::
    (List.range g.actions.length).map .destinationState
  answers_eq : g.answers = []
  stopped_eq : g.stopped = false
  aborted_eq : g.aborted = false

variable {memory : Fin 36 → UInt8} {query : CreateQuery} {world : World} {g g' : GenericCreateSendGrams}
  {order : List Asked} {asked : Asked}

theorem started_of_doStartUp {random : Nat → Nat → UInt8} (h : doStartUp memory query random = .ok g) : g.Started query := by
  obtain ⟨fields, -, h⟩ := bind_ok h
  obtain ⟨publicKey, -, h⟩ := bind_ok h
  obtain ⟨parsed, -, h⟩ := bind_ok h
  cases h
  constructor <;> rfl

namespace Started

theorem mem_inFlight (h : g.Started query) : asked ∈ g.inFlight ↔ g.Sends asked := by
  rw [h.inFlight_eq]
  cases asked <;> cases hkey : g.hasPrivateKey <;> simp [Sends, hkey]

theorem nodup_inFlight (h : g.Started query) : g.inFlight.Nodup := by
  have hrange : ((List.range g.actions.length).map Asked.destinationState).Nodup :=
    List.nodup_range.map fun i j hij => Asked.destinationState.inj hij
  rw [h.inFlight_eq]
  split <;> simp [hrange]

end Started

/-! ## One answer more -/

theorem mem_missing : asked ∈ g.missing order ↔ asked ∈ g.inFlight ∧ asked ∉ order := by
  unfold missing
  rw [List.mem_filter, decide_eq_true_eq]

theorem missing_snoc (hnodup : g.inFlight.Nodup) : g.missing (order ++ [asked]) = (g.missing order).erase asked := by
  have hmissing : (g.missing order).Nodup := hnodup.filter _
  rw [hmissing.erase_eq_filter]
  unfold missing
  rw [List.filter_filter]
  congr 1
  funext e
  by_cases he : e ∈ order <;> by_cases hea : e = asked <;> simp [he, hea]

/-- One answer less is awaited. -/
theorem countP_missing_snoc (hnodup : g.inFlight.Nodup) (hasked : asked ∈ g.missing order) :
    (g.missing order).countP Asked.isDestination =
      (g.missing (order ++ [asked])).countP Asked.isDestination + if asked.isDestination then 1 else 0 := by
  rw [missing_snoc hnodup, (List.perm_cons_erase hasked).countP_eq, List.countP_cons]

theorem checked_eq_ok {i : Nat} {d : AccountState} (h : g.checked world i = .ok d) :
    ∃ state, world.destination i = .ok state ∧ g.checkDestination state = .ok d := by
  unfold checked at h
  cases hstate : world.destination i with
  | error s =>
    rw [hstate] at h
    cases h
  | ok state =>
    rw [hstate] at h
    exact ⟨state, rfl, h⟩

omit [Contracts] in
theorem errorOf_eq_some {α : Type} {r : Except Status α} {s : Status} : errorOf r = some s ↔ r = .error s := by
  cases r <;> simp [errorOf]

omit [Contracts] in
theorem toOption_of_errorOf {α : Type} {r : Except Status α} (h : errorOf r = none) : ∃ a, r = .ok a := by
  cases r with
  | error s => cases h
  | ok a => exact ⟨a, rfl⟩

theorem store_privateKey {key : PrivateKey} (h : world.privateKey = .ok key) :
    store world g .privateKey = .ok { g with privateKey := some key } := by
  unfold store
  rw [h]
  rfl

theorem store_sourceState {source : AccountState} (h : world.source = .ok source) :
    store world g .sourceState = .ok { g with source := some (g.guessType source) } := by
  unfold store
  rw [h]
  rfl

theorem store_destinationState {i : Nat} {state d : AccountState} (hstate : world.destination i = .ok state)
    (hleft : 0 < g.destinationsLeft) (hcheck : g.checkDestination state = .ok d) :
    store world g (.destinationState i) = .ok { g with
      destinationsLeft := g.destinationsLeft - 1
      destinations := g.destinations.set i (some d) } := by
  unfold store Td.check
  dsimp only
  rw [hstate, if_pos hleft]
  change ofStatus (g.checkDestination state) >>= _ = _
  rw [hcheck]
  rfl

/-- A destination's place is filled. -/
theorem destinations_set {i n : Nat} {d : AccountState} (hd : g.checked world i = .ok d) :
    ((List.range n).map fun j => if .destinationState j ∈ order then (g.checked world j).toOption else none).set i (some d) =
      (List.range n).map fun j =>
        if .destinationState j ∈ order ++ [.destinationState i] then (g.checked world j).toOption else none := by
  apply List.ext_getElem
  · rw [List.length_set, List.length_map, List.length_map]
  · intro j hj hj'
    rw [List.getElem_set, List.getElem_map, List.getElem_map, List.getElem_range]
    by_cases hij : i = j
    · rw [if_pos hij, if_pos (by simp [hij]), ← hij, hd]
      rfl
    · have hmem : Asked.destinationState j ∈ order ++ [.destinationState i] ↔ .destinationState j ∈ order := by
        simp [Ne.symm hij]
      rw [if_neg hij]
      simp only [hmem]

/-- An answer that does not fail is stored. -/
theorem store_stored (hnodup : g.inFlight.Nodup) (hasked : asked ∈ g.missing order) (hok : g.failure world asked = none) :
    store world { g.stored world order with inFlight := (g.missing order).erase asked } asked =
      .ok (g.stored world (order ++ [asked])) := by
  have hcount := countP_missing_snoc hnodup hasked
  rw [← missing_snoc hnodup]
  cases asked with
  | privateKey =>
    obtain ⟨key, hkey⟩ := toOption_of_errorOf hok
    rw [store_privateKey hkey]
    simp [stored, hkey, hcount, Asked.isDestination, Except.toOption]
  | sourceState =>
    obtain ⟨source, hsource⟩ := toOption_of_errorOf hok
    rw [store_sourceState hsource]
    simp [stored, hsource, hcount, Asked.isDestination, Except.toOption]
    rfl
  | destinationState i =>
    obtain ⟨d, hd⟩ := toOption_of_errorOf hok
    obtain ⟨state, hstate, hcheck⟩ := checked_eq_ok hd
    have hleft : 0 < (g.missing order).countP Asked.isDestination := by
      rw [hcount]
      exact Nat.succ_pos _
    let g' : GenericCreateSendGrams :=
      { g.stored world order with inFlight := g.missing (order ++ [.destinationState i]) }
    refine (store_destinationState (g := g') hstate hleft hcheck).trans ?_
    simp [g', stored, destinations_set hd, hcount, Asked.isDestination]

/-- An answer that fails ends the actor. -/
theorem store_failure {s : Status} (hfails : g.failure world asked = some s)
    (hleft : asked.isDestination = true → 0 < g.destinationsLeft) : store world g asked = .error (.status s) := by
  cases asked with
  | privateKey =>
    have hkey : world.privateKey = .error s := errorOf_eq_some.1 hfails
    unfold store
    dsimp only
    rw [hkey]
    rfl
  | sourceState =>
    have hsource : world.source = .error s := errorOf_eq_some.1 hfails
    unfold store
    dsimp only
    rw [hsource]
    rfl
  | destinationState i =>
    have hchecked : g.checked world i = .error s := errorOf_eq_some.1 hfails
    unfold store Td.check
    dsimp only
    rw [if_pos (hleft rfl)]
    unfold checked at hchecked
    cases hstate : world.destination i with
    | error s' =>
      rw [hstate] at hchecked
      cases hchecked
      rfl
    | ok state =>
      rw [hstate] at hchecked
      change ofStatus (g.checkDestination state) >>= _ = _
      rw [show g.checkDestination state = .error s from hchecked]
      rfl

/-! ## The loop -/

omit [Contracts] in
theorem isDestination_of_countP_eq_zero {l : List Asked} (h : l.countP Asked.isDestination = 0) (hasked : asked ∈ l) :
    asked.isDestination = false := by
  rw [List.countP_eq_zero] at h
  exact eq_false_of_ne_true (h asked hasked)

/-- As long as an answer is missing the loop does nothing. -/
theorem doLoop_stored (hstarted : g.Started query) (hmissing : asked ∈ g.missing order) :
    (g.stored world order).doLoop = .ok none := by
  obtain ⟨hasked, hnot⟩ := mem_missing.1 hmissing
  unfold doLoop
  cases hsource : (g.stored world order).source with
  | none => rfl
  | some source =>
    dsimp only
    split
    · rfl
    · next hleft =>
      have hdestination := isDestination_of_countP_eq_zero (not_not.1 hleft) hmissing
      cases asked with
      | privateKey =>
        have hkey : (g.stored world order).privateKey = none := if_neg hnot
        have hhas : (g.stored world order).hasPrivateKey = true := hstarted.mem_inFlight.1 hasked
        rw [hhas, hkey]
        rfl
      | sourceState =>
        have hnone : (g.stored world order).source = none := if_neg hnot
        rw [hnone] at hsource
        cases hsource
      | destinationState i => cases hdestination

/-- Only which answers have arrived matters. -/
theorem stored_congr {order' : List Asked} (h : ∀ asked, asked ∈ order ↔ asked ∈ order') :
    g.stored world order = g.stored world order' := by
  unfold stored missing
  simp only [h]

theorem stored_of_missing_eq_nil (hsub : ∀ asked ∈ order, asked ∈ g.inFlight) (hmissing : g.missing order = []) :
    g.stored world order = g.complete world := by
  apply stored_congr
  intro asked
  constructor
  · exact hsub asked
  · intro hasked
    by_contra hnot
    have hmem := mem_missing.2 ⟨hasked, hnot⟩
    rw [hmissing] at hmem
    cases hmem

/-! ## Runs -/

/-- How far the actor is after some answers. -/
inductive Phase (world : World) (g : GenericCreateSendGrams) (order : List Asked) : GenericCreateSendGrams → Prop
  | waiting (hok : ∀ asked ∈ order, g.failure world asked = none) (hmissing : g.missing order ≠ []) :
    Phase world g order (g.stored world order)
  | done (hok : ∀ asked ∈ order, g.failure world asked = none) (hmissing : g.missing order = []) :
    Phase world g order ((g.complete world).check (g.complete world).doLoop)
  | failed {asked : Asked} {s : Status} {g' : GenericCreateSendGrams} (hasked : asked ∈ order)
    (hfails : g.failure world asked = some s) (hstopped : g'.stopped = true) (hanswers : g'.answers = [.error s])
    (hstatic : g'.allowSendToUninited = g.allowSendToUninited) : Phase world g order g'

/-- What holds after some answers. -/
structure Inv (world : World) (g : GenericCreateSendGrams) (order : List Asked) (g' : GenericCreateSendGrams) : Prop where
  subset : ∀ asked ∈ order, asked ∈ g.inFlight
  inFlight_eq : g'.inFlight = g.missing order
  phase : Phase world g order g'

/-- Before the first answer. -/
theorem stored_nil (hstarted : g.Started query) : g.stored world [] = g := by
  have hmissing : g.missing [] = g.inFlight := List.filter_eq_self.2 fun _ _ => decide_eq_true (List.not_mem_nil)
  have hleft : g.inFlight.countP Asked.isDestination = g.destinationsLeft := by
    have hall : ((List.range g.actions.length).map Asked.destinationState).countP Asked.isDestination =
        g.actions.length := by
      rw [List.countP_map, List.countP_eq_length.2, List.length_range]
      intro i _
      rfl
    rw [hstarted.inFlight_eq, hstarted.destinationsLeft_eq, List.countP_append, List.countP_cons, hall]
    cases g.hasPrivateKey <;> simp [Asked.isDestination]
  have hdestinations : ((List.range g.actions.length).map fun i => if Asked.destinationState i ∈ [] then
      (g.checked world i).toOption else none) = g.destinations := by
    rw [hstarted.destinations_eq]
    apply List.ext_getElem
    · rw [List.length_map, List.length_range, List.length_replicate]
    · intro i _ _
      rw [List.getElem_map, List.getElem_replicate, if_neg List.not_mem_nil]
  unfold stored
  rw [hmissing, hleft, hdestinations, if_neg List.not_mem_nil, if_neg List.not_mem_nil]
  have hkey := hstarted.privateKey_eq
  have hsource := hstarted.source_eq
  cases g
  cases hkey
  cases hsource
  rfl

theorem inFlight_check (r : Result (Option (RawQuery AccountState))) : (g.check r).inFlight = g.inFlight := by
  rcases r with f | q
  · cases f <;> rfl
  · cases q <;> rfl

theorem inv_startUp (h : doStartUp memory query world.random = .ok g) :
    Inv world g [] (startUp memory query world.random) := by
  have hstarted := started_of_doStartUp h
  have hsource : Asked.sourceState ∈ g.missing [] := mem_missing.2 ⟨hstarted.mem_inFlight.2 trivial, List.not_mem_nil⟩
  have hstart : startUp memory query world.random = g.stored world [] := by
    unfold startUp
    rw [h]
    dsimp only
    have hloop : (g.stored world []).doLoop = .ok none := doLoop_stored hstarted hsource
    rw [stored_nil hstarted] at hloop ⊢
    rw [hloop]
    rfl
  rw [hstart]
  constructor
  · intro asked hasked
    cases hasked
  · rfl
  · refine .waiting ?_ (List.ne_nil_of_mem hsource)
    intro asked hasked
    cases hasked

theorem step_eq_some (h : step world g asked = some g') :
    asked ∈ g.inFlight ∧ g' = (let g := { g with inFlight := g.inFlight.erase asked }
      if g.stopped then g else g.receive world asked) := by
  unfold step at h
  split at h
  · next hasked => exact ⟨hasked, (Option.some.inj h).symm⟩
  · cases h

/-- One answer more. -/
theorem inv_step {g₀ : GenericCreateSendGrams} (hstarted : g₀.Started query) (hinv : Inv world g₀ order g)
    (hstep : step world g asked = some g') : Inv world g₀ (order ++ [asked]) g' := by
  obtain ⟨hasked, rfl⟩ := step_eq_some hstep
  rw [hinv.inFlight_eq] at hasked
  have hnodup := hstarted.nodup_inFlight
  have hsubset : ∀ e ∈ order ++ [asked], e ∈ g₀.inFlight := by
    intro e he
    rcases List.mem_append.1 he with he | he
    · exact hinv.subset e he
    · rw [List.mem_singleton.1 he]
      exact (mem_missing.1 hasked).1
  obtain ⟨-, hflight, hphase⟩ := hinv
  cases hphase with
  | waiting hok hmissing =>
    let g' : GenericCreateSendGrams := { g₀.stored world order with inFlight := (g₀.missing order).erase asked }
    have hreceive : (if g'.stopped then g' else g'.receive world asked) = g'.receive world asked :=
      if_neg (by rw [show g'.stopped = g₀.stopped from rfl, hstarted.stopped_eq]; exact Bool.false_ne_true)
    change Inv world g₀ (order ++ [asked]) (if g'.stopped then g' else g'.receive world asked)
    rw [hreceive]
    unfold receive
    cases hfails : g₀.failure world asked with
    | some s =>
      have hleft : asked.isDestination = true → 0 < g'.destinationsLeft :=
        fun hdestination => List.countP_pos_iff.2 ⟨asked, hasked, hdestination⟩
      have hstore : store world g' asked = .error (.status s) := by
        refine store_failure ?_ hleft
        cases asked <;> exact hfails
      rw [hstore]
      refine ⟨hsubset, (missing_snoc hnodup).symm, ?_⟩
      refine .failed (List.mem_append_right order List.mem_cons_self) hfails rfl ?_ rfl
      change g₀.answers ++ _ = _
      rw [hstarted.answers_eq, List.nil_append]
    | none =>
      have hstore : store world g' asked = .ok (g₀.stored world (order ++ [asked])) := store_stored hnodup hasked hfails
      have hok : ∀ e ∈ order ++ [asked], g₀.failure world e = none := by
        intro e he
        rcases List.mem_append.1 he with he | he
        · exact hok e he
        · rw [List.mem_singleton.1 he]
          exact hfails
      rw [hstore]
      dsimp only
      by_cases hmissing' : g₀.missing (order ++ [asked]) = []
      · rw [stored_of_missing_eq_nil hsubset hmissing']
        refine ⟨hsubset, ?_, .done hok hmissing'⟩
        rw [inFlight_check, ← stored_of_missing_eq_nil hsubset hmissing']
        rfl
      · obtain ⟨e, he⟩ := List.exists_mem_of_ne_nil _ hmissing'
        rw [doLoop_stored hstarted he]
        exact ⟨hsubset, rfl, .waiting hok hmissing'⟩
  | done hok hmissing =>
    rw [hmissing] at hasked
    cases hasked
  | failed hfailed hfails hstopped hanswers hstatic =>
    dsimp only
    rw [if_pos hstopped]
    refine ⟨hsubset, ?_, ?_⟩
    · rw [missing_snoc hnodup, ← hflight]
    · exact .failed (List.mem_append_left _ hfailed) hfails hstopped hanswers hstatic

theorem inv_of_run {g₀ : GenericCreateSendGrams} (h : doStartUp memory query world.random = .ok g₀)
    (hrun : Run (Steps (step world)) (startUp memory query world.random) order g) : Inv world g₀ order g := by
  induction hrun with
  | nil => exact inv_startUp h
  | snoc _ hstep ih => exact inv_step (started_of_doStartUp h) ih hstep

/-- The answers can arrive in any order. -/
theorem exists_run {g₀ : GenericCreateSendGrams} (h : doStartUp memory query world.random = .ok g₀)
    (hnodup : order.Nodup) (hsub : ∀ asked ∈ order, asked ∈ g₀.inFlight) :
    ∃ g, Run (Steps (step world)) (startUp memory query world.random) order g := by
  induction order using List.reverseRecOn with
  | nil => exact ⟨_, .nil⟩
  | append_singleton order asked ih =>
    rw [List.nodup_append] at hnodup
    obtain ⟨g, hrun⟩ := ih hnodup.1 fun e he => hsub e (List.mem_append_left _ he)
    have hflight : asked ∈ g.inFlight := by
      rw [(inv_of_run h hrun).inFlight_eq, mem_missing]
      constructor
      · exact hsub asked (List.mem_append_right _ List.mem_cons_self)
      · intro hmem
        exact hnodup.2.2 asked hmem asked List.mem_cons_self rfl
    have hstep : step world g asked = some _ := if_pos hflight
    exact ⟨_, .snoc hrun hstep⟩

/-! ## The final answer -/

/-- What the promise is set to when everything has arrived. -/
def finalAnswer : Result (Option (RawQuery AccountState)) → Option (Except Status (RawQuery AccountState))
  | .ok none => none
  | .ok (some q) => some (.ok q)
  | .error (.status s) => some (.error s)
  | .error _ => none

theorem answers_check (r : Result (Option (RawQuery AccountState))) :
    (g.check r).answers = g.answers ++ (finalAnswer r).toList := by
  rcases r with f | q
  · cases f <;> simp [check, finalAnswer]
  · cases q <;> simp [check, finalAnswer]

/-! ## Safe queries -/

theorem failure_congr (h : g'.allowSendToUninited = g.allowSendToUninited) :
    g'.failure world asked = g.failure world asked := by
  cases asked with
  | privateKey => rfl
  | sourceState => rfl
  | destinationState i =>
    unfold failure checked checkDestination
    rw [h]

theorem rawQuery_ok {source : AccountState} {destinations : List AccountState} {validUntil : UInt32} {body : Cell}
    {q : RawQuery AccountState} (h : rawQuery source destinations validUntil body = .ok q) :
    q.source = source ∧ q.messageBody = body := by
  obtain ⟨message, -, h⟩ := bind_ok h
  cases h
  exact ⟨rfl, rfl⟩

theorem makeGift_destination {source : AccountState} {i : Nat} {action : Action} {destination : AccountState} {gift : Gift}
    (h : g.makeGift source i action destination = .ok gift) : gift.destination = destination.address := by
  unfold makeGift at h
  dsimp only at h
  split at h
  · cases h
    rfl
  · split at h
    · obtain ⟨key, -, h⟩ := bind_ok h
      obtain ⟨publicKey, -, h⟩ := bind_ok h
      obtain ⟨message, -, h⟩ := bind_ok h
      cases h
      rfl
    · cases h
      rfl

/-- The gifts are for the destinations, in order. -/
theorem makeGifts_destination {source : AccountState} {pairs : List (Action × AccountState)} {i : Nat} {gifts : List Gift}
    (h : g.makeGifts source i pairs = .ok gifts) : gifts.map Gift.destination = pairs.map fun pair => pair.2.address := by
  induction pairs generalizing i gifts with
  | nil =>
    cases h
    rfl
  | cons pair pairs ih =>
    obtain ⟨gift, hgift, h⟩ := bind_ok h
    obtain ⟨rest, hrest, h⟩ := bind_ok h
    cases h
    rw [List.map_cons, List.map_cons, makeGift_destination hgift, ih hrest]

theorem doDnsLoop_source {source : AccountState} {q : RawQuery AccountState} (h : g.doDnsLoop source = .ok q) :
    q.source = source := by
  obtain ⟨key, -, h⟩ := bind_ok h
  dsimp only at h
  split at h
  · obtain ⟨body, -, h⟩ := bind_ok h
    exact (rawQuery_ok h).1
  · obtain ⟨body, -, h⟩ := bind_ok h
    exact (rawQuery_ok h).1

theorem doPchanLoop_source {source : AccountState} {q : RawQuery AccountState} (h : g.doPchanLoop source = .ok (some q)) :
    q.source = source := by
  obtain ⟨key, -, h⟩ := bind_ok h
  split at h
  · cases h
  · obtain ⟨q', hq, h⟩ := bind_ok h
    cases h
    obtain ⟨action, -, hq⟩ := bind_ok hq
    obtain ⟨info, -, hq⟩ := bind_ok hq
    obtain ⟨_, -, hq⟩ := bind_ok hq
    obtain ⟨body, -, hq⟩ := bind_ok hq
    exact (rawQuery_ok hq).1
  · cases h

/-- What a query carries are gifts for the destinations that have arrived. -/
theorem carries_of_build {source : AccountState} {q : RawQuery AccountState} (h : g.build source = .ok (some q)) :
    ∃ gifts, g.Carries q gifts ∧ ∀ (i : Nat) (gift : Gift), gifts[i]? = some gift →
      ∃ d : AccountState, g.destinations.reduceOption[i]? = some d ∧ gift.destination = d.address := by
  have hnone : ∀ (i : Nat) (gift : Gift), ([] : List Gift)[i]? = some gift →
      ∃ d : AccountState, g.destinations.reduceOption[i]? = some d ∧ gift.destination = d.address := by
    intro i gift hgift
    cases hgift
  have hmap {r : Result (RawQuery AccountState)} (hr : some <$> r = .ok (some q)) : r = .ok q := by
    cases r with
    | error f => cases hr
    | ok q' =>
      cases hr
      rfl
  unfold build at h
  split at h
  · next hdns =>
    refine ⟨[], .dns ?_, hnone⟩
    rw [doDnsLoop_source (hmap h)]
    exact hdns
  · split at h
    · next hchannel =>
      refine ⟨[], .channel ?_, hnone⟩
      rw [doPchanLoop_source h]
      exact hchannel
    · split at h
      · next hconfig =>
        rw [Bool.and_eq_true] at hconfig
        exact ⟨[], .config hconfig.1, hnone⟩
      · obtain ⟨-, gifts, key, body, hgifts, -, hbody, hquery⟩ := doWalletLoop_ok (hmap h)
        obtain ⟨hsource, hqbody⟩ := rawQuery_ok hquery
        rw [← hsource, ← hqbody] at hbody
        refine ⟨gifts, .gifts hbody, ?_⟩
        · intro i gift hgift
          have hdestinations := congrArg (·[i]?) (makeGifts_destination hgifts)
          simp only [List.getElem?_map, hgift, Option.map_some] at hdestinations
          obtain ⟨pair, hpair, hdestination⟩ := Option.map_eq_some_iff.1 hdestinations.symm
          have hzip := List.getElem?_zip_eq_some.1 hpair
          exact ⟨pair.2, hzip.2, hdestination.symm⟩

/-- What an accepted destination is like. -/
theorem checkDestination_ok {state d : AccountState} (h : g.checkDestination state = .ok d) :
    state.isFrozen = false ∧
      (state.walletType = .empty → state.address.bounceable = true → g.allowSendToUninited = true) ∧
      d.address.workchain = state.address.workchain ∧ d.address.addr = state.address.addr ∧
      (state.walletType = .empty → d.address.bounceable = false) := by
  unfold checkDestination at h
  split at h
  · cases h
  · next hfrozen =>
    refine ⟨eq_false_of_ne_true hfrozen, ?_⟩
    split at h
    · split at h
      · next hallow =>
        cases h
        exact ⟨fun _ _ => hallow, rfl, rfl, fun _ => rfl⟩
      · cases h
    · next hno =>
      cases h
      refine ⟨fun htype hbounceable => absurd ⟨htype, hbounceable⟩ hno, rfl, rfl, ?_⟩
      intro htype
      exact eq_false_of_ne_true fun hbounceable => hno ⟨htype, hbounceable⟩

/-! ## When everything has arrived -/

section Complete

variable (hstarted : g.Started query) (hok : ∀ asked ∈ g.inFlight, g.failure world asked = none)
include hstarted hok

theorem destinations_complete : ∃ ds : List AccountState, (g.complete world).destinations = ds.map some ∧
    ds.length = g.actions.length ∧ ∀ (i : Nat) (d : AccountState), ds[i]? = some d → g.checked world i = .ok d := by
  have hchecked (i : Fin g.actions.length) : ∃ d, g.checked world i = .ok d :=
    toOption_of_errorOf (hok (.destinationState i) (hstarted.mem_inFlight.2 i.2))
  choose d hd using hchecked
  refine ⟨List.ofFn d, ?_, List.length_ofFn, ?_⟩
  · change ((List.range g.actions.length).map fun i =>
      if .destinationState i ∈ g.inFlight then (g.checked world i).toOption else none) = _
    apply List.ext_getElem
    · rw [List.length_map, List.length_map, List.length_range, List.length_ofFn]
    · intro i hi _
      rw [List.length_map, List.length_range] at hi
      have hmem : Asked.destinationState i ∈ g.inFlight := hstarted.mem_inFlight.2 hi
      rw [List.getElem_map, List.getElem_map, List.getElem_range, List.getElem_ofFn, if_pos hmem, hd ⟨i, hi⟩]
      rfl
  · intro i di hdi
    rw [List.getElem?_ofFn] at hdi
    split at hdi
    · next hi =>
      cases hdi
      exact hd ⟨i, hi⟩
    · cases hdi

/-- The loop has got past its guards. -/
theorem doLoop_complete : ∃ source, world.source = .ok source ∧
    (g.complete world).doLoop = (g.complete world).build (g.guessType source) := by
  have hmem : Asked.sourceState ∈ g.inFlight := hstarted.mem_inFlight.2 trivial
  obtain ⟨source, hsource⟩ := toOption_of_errorOf (hok _ hmem)
  have hcomplete : (g.complete world).source = some (g.guessType source) := by
    change (if Asked.sourceState ∈ g.inFlight then world.source.toOption.map g.guessType else none) = _
    rw [if_pos hmem, hsource]
    rfl
  have hmissing : g.missing g.inFlight = [] := by
    rw [List.eq_nil_iff_forall_not_mem]
    intro asked hasked
    exact (mem_missing.1 hasked).2 (mem_missing.1 hasked).1
  have hleft : (g.complete world).destinationsLeft = 0 := by
    change (g.missing g.inFlight).countP Asked.isDestination = 0
    rw [hmissing]
    rfl
  refine ⟨source, hsource, ?_⟩
  unfold doLoop
  rw [hcomplete]
  dsimp only
  rw [if_neg (not_not.2 hleft), if_neg]
  intro hnone
  rw [Bool.and_eq_true] at hnone
  have hkeyMem : Asked.privateKey ∈ g.inFlight := hstarted.mem_inFlight.2 hnone.1
  obtain ⟨key, hkey⟩ := toOption_of_errorOf (hok _ hkeyMem)
  have hsome : (g.complete world).privateKey = some key := by
    change (if Asked.privateKey ∈ g.inFlight then world.privateKey.toOption else none) = _
    rw [if_pos hkeyMem, hkey]
    rfl
  rw [hsome] at hnone
  cases hnone.2

theorem privateKey_complete : (g.complete world).privateKey.isSome = query.privateKey.isSome := by
  rw [← hstarted.hasPrivateKey_eq]
  change (if Asked.privateKey ∈ g.inFlight then world.privateKey.toOption else none).isSome = _
  cases hhas : g.hasPrivateKey with
  | false =>
    rw [if_neg]
    · rfl
    · intro hmem
      rw [hstarted.mem_inFlight.1 hmem] at hhas
      cases hhas
  | true =>
    have hmem : Asked.privateKey ∈ g.inFlight := hstarted.mem_inFlight.2 hhas
    obtain ⟨key, hkey⟩ := toOption_of_errorOf (hok _ hmem)
    rw [if_pos hmem, hkey]
    rfl

/-- The query of a request of which nothing fails is safe. -/
theorem safe_of_doLoop {q : RawQuery AccountState} (h : (g.complete world).doLoop = .ok (some q)) : g.Safe world q := by
  obtain ⟨source, -, hbuild⟩ := doLoop_complete hstarted hok
  rw [hbuild] at h
  obtain ⟨ds, hds, -, hchecked⟩ := destinations_complete hstarted hok
  constructor
  · intro i hi
    obtain ⟨d, hd⟩ := toOption_of_errorOf (hok (.destinationState i) (hstarted.mem_inFlight.2 hi))
    obtain ⟨state, hstate, hcheck⟩ := checked_eq_ok hd
    obtain ⟨hfrozen, hallow, -⟩ := checkDestination_ok hcheck
    exact ⟨state, hstate, hfrozen, hallow⟩
  · obtain ⟨gifts, hcarries, hgifts⟩ := carries_of_build h
    refine ⟨gifts, ?_, ?_⟩
    · cases hcarries with
      | gifts made => exact .gifts made
      | dns h => exact .dns h
      | channel h => exact .channel h
      | config h => exact .config h
    · intro i gift hgift
      obtain ⟨d, hd, hdestination⟩ := hgifts i gift hgift
      rw [hds, reduceOption_map_some] at hd
      obtain ⟨state, hstate, hcheck⟩ := checked_eq_ok (hchecked i d hd)
      obtain ⟨-, -, hworkchain, haddr, hbounceable⟩ := checkDestination_ok hcheck
      rw [hdestination]
      exact ⟨state, hstate, hworkchain, haddr, hbounceable⟩

end Complete

/-! ## Once for all orders -/

/-- A request to do nothing, with a key, to a payment channel. -/
def Silent (memory : Fin 36 → UInt8) (query : CreateQuery) (world : World) : Prop :=
  ∃ g, doStartUp memory query world.random = .ok g ∧ (∀ asked ∈ g.inFlight, ¬ g.Fails world asked) ∧
    query.privateKey.isSome = true ∧ query.action = some .noop ∧
    ∃ source, world.source = .ok source ∧ (g.guessType source).walletType = .paymentChannel

/-- What is called throws or aborts: reading the request, or making the query when all is there. -/
def Aborts (memory : Fin 36 → UInt8) (query : CreateQuery) (world : World) : Prop :=
  ∃ f : Fail, f.aborts = true ∧ (doStartUp memory query world.random = .error f ∨
    ∃ g, doStartUp memory query world.random = .ok g ∧ (∀ asked ∈ g.inFlight, ¬ g.Fails world asked) ∧
      (g.complete world).doLoop = .error f)

theorem not_fails_iff : ¬ g.Fails world asked ↔ g.failure world asked = none := by
  unfold Fails
  cases g.failure world asked <;> simp

theorem doPchanLoop_eq_ok_none {source : AccountState} :
    g.doPchanLoop source = .ok none ↔ g.privateKey.isSome = true ∧ g.query.action = some .noop := by
  constructor
  · intro h
    obtain ⟨key, hkey, h⟩ := bind_ok h
    rw [orStatus_ok_iff] at hkey
    split at h
    · next haction =>
      rw [hkey]
      exact ⟨rfl, haction⟩
    · obtain ⟨q, -, h⟩ := bind_ok h
      cases h
    · cases h
  · rintro ⟨hkey, haction⟩
    obtain ⟨key, hkey⟩ := Option.isSome_iff_exists.1 hkey
    unfold doPchanLoop
    rw [hkey, haction]
    rfl

/-- The loop ends without an answer for a request to do nothing with a payment channel. -/
theorem build_eq_ok_none {source : AccountState} : g.build source = .ok none ↔
    source.walletType = .paymentChannel ∧ g.privateKey.isSome = true ∧ g.query.action = some .noop := by
  have hmap (r : Result (RawQuery AccountState)) : some <$> r ≠ .ok none := by
    intro h
    cases r <;> cases h
  unfold build
  split
  · next hdns =>
    rw [hdns]
    constructor
    · intro h
      exact absurd h (hmap _)
    · rintro ⟨hchannel, -⟩
      cases hchannel
  · split
    · next hchannel =>
      rw [doPchanLoop_eq_ok_none]
      constructor
      · intro h
        exact ⟨hchannel, h⟩
      · intro h
        exact h.2
    · next hchannel =>
      constructor
      · intro h
        split at h
        · exact absurd h (hmap _)
        · exact absurd h (hmap _)
      · rintro ⟨hsource, -⟩
        exact absurd hsource hchannel

omit [Contracts] in
/-- Whether the loop of the complete state ends without an answer. -/
theorem finalAnswer_eq_none {r : Result (Option (RawQuery AccountState))} :
    finalAnswer r = none ↔ r = .ok none ∨ ∃ f : Fail, f.aborts = true ∧ r = .error f := by
  rcases r with f | q
  · cases f <;> simp [finalAnswer, Fail.aborts]
  · cases q <;> simp [finalAnswer]

theorem silent_or_aborts_of_finalAnswer (hstart : doStartUp memory query world.random = .ok g)
    (hok : ∀ asked ∈ g.inFlight, g.failure world asked = none) (h : finalAnswer (g.complete world).doLoop = none) :
    Silent memory query world ∨ Aborts memory query world := by
  have hstarted := started_of_doStartUp hstart
  have hnot : ∀ asked ∈ g.inFlight, ¬ g.Fails world asked := fun asked hasked => not_fails_iff.2 (hok asked hasked)
  rcases finalAnswer_eq_none.1 h with hnone | ⟨f, haborts, hf⟩
  · left
    obtain ⟨source, hsource, hbuild⟩ := doLoop_complete hstarted hok
    rw [hbuild, build_eq_ok_none, privateKey_complete hstarted hok] at hnone
    obtain ⟨hchannel, hkey, hnoop⟩ := hnone
    have hquery : (g.complete world).query = query := hstarted.query_eq
    rw [hquery] at hnoop
    exact ⟨g, hstart, hnot, hkey, hnoop, source, hsource, hchannel⟩
  · right
    exact ⟨f, haborts, .inr ⟨g, hstart, hnot, hf⟩⟩

theorem finalAnswer_of_silent_or_aborts (hstart : doStartUp memory query world.random = .ok g)
    (h : Silent memory query world ∨ Aborts memory query world) :
    (∀ asked ∈ g.inFlight, g.failure world asked = none) ∧ finalAnswer (g.complete world).doLoop = none := by
  rcases h with ⟨g', hstart', hnot, hkey, hnoop, source, hsource, hchannel⟩ | ⟨f, haborts, hstart' | ⟨g', hstart', hnot, hf⟩⟩
  · rw [hstart] at hstart'
    cases hstart'
    have hstarted := started_of_doStartUp hstart
    have hok : ∀ asked ∈ g.inFlight, g.failure world asked = none := fun asked hasked => not_fails_iff.1 (hnot asked hasked)
    refine ⟨hok, finalAnswer_eq_none.2 (.inl ?_)⟩
    obtain ⟨source', hsource', hbuild⟩ := doLoop_complete hstarted hok
    rw [hsource] at hsource'
    cases hsource'
    rw [hbuild, build_eq_ok_none, privateKey_complete hstarted hok]
    refine ⟨hchannel, hkey, ?_⟩
    have hquery : (g.complete world).query = query := hstarted.query_eq
    rw [hquery]
    exact hnoop
  · rw [hstart] at hstart'
    cases hstart'
  · rw [hstart] at hstart'
    cases hstart'
    exact ⟨fun asked hasked => not_fails_iff.1 (hnot asked hasked), finalAnswer_eq_none.2 (.inr ⟨f, haborts, hf⟩)⟩

/-- A check leaves the request's fields as they are. -/
theorem check_eq (r : Result (Option (RawQuery AccountState))) : ∃ answers stopped aborted,
    g.check r = { g with answers, stopped, aborted } := by
  rcases r with f | q
  · cases f <;> exact ⟨_, _, _, rfl⟩
  · cases q <;> exact ⟨_, _, _, rfl⟩

/-- Where the loop ends with an answer, the actor's answer is that in all orders. -/
theorem answered_of_inv {answer : Except Status (RawQuery AccountState)} (hstarted : g.Started query)
    (hinv : Inv world g order g')
    (hanswer : (∀ asked ∈ g.inFlight, g.failure world asked = none) → finalAnswer (g.complete world).doLoop = some answer) :
    g'.Answered world answer order := by
  obtain ⟨hsubset, hflight, hphase⟩ := hinv
  cases hphase with
  | waiting hok hmissing =>
    have hnone : (g.stored world order).answers = [] := hstarted.answers_eq
    constructor
    · rw [hnone]
      exact Nat.zero_le 1
    · intro hnil
      exact absurd hnil hmissing
    · intro hne
      exact absurd hnone hne
    · intro _ hnil
      exact absurd hnil hmissing
    · intro q hq
      rw [hnone] at hq
      cases hq
  | done hok hmissing =>
    have hall : ∀ asked ∈ g.inFlight, g.failure world asked = none := by
      intro asked hasked
      by_cases hmem : asked ∈ order
      · exact hok asked hmem
      · have hmem := mem_missing.2 ⟨hasked, hmem⟩
        rw [hmissing] at hmem
        cases hmem
    have hfinal := hanswer hall
    have hcomplete : (g.complete world).answers = [] := hstarted.answers_eq
    have hanswers : ((g.complete world).check (g.complete world).doLoop).answers = [answer] := by
      rw [answers_check, hcomplete, hfinal]
      rfl
    constructor
    · rw [hanswers]
      exact Nat.le_refl 1
    · intro _
      rw [hanswers]
      rfl
    · intro _
      left
      rw [hflight, hmissing]
    · intro _ _
      exact hanswers
    · intro q hq
      rw [hanswers, List.mem_singleton] at hq
      have hloop : (g.complete world).doLoop = .ok (some q) := by
        rw [← hq] at hfinal
        revert hfinal
        rcases (g.complete world).doLoop with f | q'
        · cases f <;> simp [finalAnswer]
        · cases q' <;> simp [finalAnswer]
      obtain ⟨haccepted, gifts, hcarries, hgifts⟩ := safe_of_doLoop hstarted hall hloop
      obtain ⟨answers, stopped, aborted, hcheck⟩ := check_eq (g := g.complete world) (g.complete world).doLoop
      rw [hcheck]
      refine ⟨haccepted, gifts, ?_, hgifts⟩
      cases hcarries with
      | gifts made => exact .gifts made
      | dns h => exact .dns h
      | channel h => exact .channel h
      | config h => exact .config h
  | @failed asked s _ hasked hfails hstopped hanswers hstatic =>
    have hfailed : ∃ asked ∈ order, g'.Fails world asked := by
      refine ⟨asked, hasked, s, ?_⟩
      rw [failure_congr hstatic]
      exact hfails
    constructor
    · rw [hanswers]
      exact Nat.le_refl 1
    · intro _
      rw [hanswers]
      rfl
    · intro _
      exact .inr hfailed
    · intro hnot _
      obtain ⟨asked, hasked, hfails⟩ := hfailed
      exact absurd hfails (hnot asked hasked)
    · intro q hq
      rw [hanswers, List.mem_singleton] at hq
      cases hq

/-- A request that is refused is answered at once. -/
theorem answered_of_refused {s : Status} (hstart : doStartUp memory query world.random = .error (.status s))
    (hrun : Run (Steps (step world)) (startUp memory query world.random) order g) : g.Answered world (.error s) order := by
  have hrefused : startUp memory query world.random = { query, random := world.random, answers := [.error s], stopped := true } := by
    unfold startUp
    rw [hstart]
    rfl
  have hsame : g = startUp memory query world.random := by
    induction hrun with
    | nil => rfl
    | snoc _ hstep ih =>
      rw [ih, hrefused] at hstep
      cases (step_eq_some hstep).1
  rw [hsame, hrefused]
  constructor
  · exact Nat.le_refl 1
  · intro _
    rfl
  · intro _
    exact .inl rfl
  · intro _ _
    rfl
  · intro q hq
    cases List.mem_singleton.1 hq

/-- Without an answer of the loop, the actor ends without one. -/
theorem unanswered_of_silent_or_aborts (h : Silent memory query world ∨ Aborts memory query world) : ¬ AnswersOnce memory query world := by
  rintro ⟨answer, hanswered⟩
  cases hstart : doStartUp memory query world.random with
  | error f =>
    have haborts : f.aborts = true := by
      rcases h with ⟨g, hstart', -⟩ | ⟨f', haborts, hstart' | ⟨g, hstart', -⟩⟩
      · rw [hstart] at hstart'
        cases hstart'
      · rw [hstart] at hstart'
        cases hstart'
        exact haborts
      · rw [hstart] at hstart'
        cases hstart'
    have hnone : (startUp memory query world.random).answers = [] ∧ (startUp memory query world.random).inFlight = [] := by
      unfold startUp
      rw [hstart]
      cases f with
      | status s => cases haborts
      | vmError _ => exact ⟨rfl, rfl⟩
      | vmVirtError => exact ⟨rfl, rfl⟩
      | cellWriteError => exact ⟨rfl, rfl⟩
      | check _ => exact ⟨rfl, rfl⟩
    have hlength := (hanswered [] _ .nil).atLeastOnce hnone.2
    rw [hnone.1] at hlength
    cases hlength
  | ok g =>
    obtain ⟨hok, hfinal⟩ := finalAnswer_of_silent_or_aborts hstart h
    have hstarted := started_of_doStartUp hstart
    obtain ⟨g', hrun⟩ := exists_run hstart hstarted.nodup_inFlight fun asked hasked => hasked
    have hmissing : g.missing g.inFlight = [] := by
      rw [List.eq_nil_iff_forall_not_mem]
      intro asked hasked
      exact (mem_missing.1 hasked).2 (mem_missing.1 hasked).1
    obtain ⟨-, hflight, hphase⟩ := inv_of_run hstart hrun
    have hlength := (hanswered _ _ hrun).atLeastOnce (by rw [hflight, hmissing])
    cases hphase with
    | waiting _ hne => exact hne hmissing
    | done _ _ =>
      have hcomplete : (g.complete world).answers = [] := hstarted.answers_eq
      rw [answers_check, hcomplete, hfinal] at hlength
      cases hlength
    | failed hasked hfails _ _ _ =>
      rw [hok _ hasked] at hfails
      cases hfails

end GenericCreateSendGrams

end

namespace Sample

open GenericCreateSendGrams

/-- A payment channel, as a text and as an account. -/
def channelText : List Char := "0:".toList ++ List.replicate 64 '3'
def channel : AccountState := account .paymentChannel 1000

/-- A request to do nothing. -/
def noop [Contracts] : CreateQuery := ⟨some .fake, some channelText, 60, some .noop, none⟩

def channelWorld [Contracts] (key : PrivateKey) : World := ⟨.ok key, .ok channel, fun _ => .error accountNotInited, fun _ _ => 0⟩

theorem doStartUp_noop [Contracts] (random : Nat → Nat → UInt8) : doStartUp (fun _ => 0) noop random = .ok
    { query := noop, random, publicKey := some (List.replicate 32 0), hasPrivateKey := true, isFakeKey := true,
      inFlight := [.privateKey, .sourceState] } := by
  have haddress : getAccountAddress (fun _ => 0) channelText = .ok (SmcEnvelope.Sample.threes 0) := by decide +kernel
  have hfields : checkFields (fun _ => 0) noop = .ok (SmcEnvelope.Sample.threes 0, .noop) := by
    have htimeout : ¬ ((60 : Int32) < 0 ∨ (60 : Int32) > 300) := by decide
    have haccepted (s : Status) : refuseIf (noop.timeout < 0 ∨ noop.timeout > 300) s = .ok () := if_neg htimeout
    unfold checkFields
    rw [haccepted, show noop.address = some channelText from rfl, show noop.action = some .noop from rfl]
    simp only [orStatus, haddress, bind, Except.bind]
    rfl
  unfold doStartUp
  rw [hfields]
  rfl

end Sample

end TonWallet.Tonlib.SendGrams
