/-
The lite-server queries that `ExtClientOutbound` hands to the application, and the application's answers to them. The
number an application sees is the client's own number of the query and the low 16 bits of the configuration generation;
`TonlibClient` compares the latter, the client of its configuration looks up the former, later.
-/
import Mathlib.Data.BitVec
import Mathlib.Data.Nat.Bitwise
import Mathlib.Data.List.Nodup
import Mathlib.Logic.Function.Basic
import TonWallet.Lib.Run
import TonWallet.Td.Status

namespace TonWallet.Tonlib

open Lib TonWallet.Td

/-! ## Numbers -/

namespace OutboundQuery

/-- The field `config_generation_` after some calls of `set_config`, as a 64-bit number. -/
def configGeneration (generation : Nat) : BitVec 64 := (BitVec.ofNat 32 generation).setWidth 64

/-- The number that `Callback::request` hands out. -/
def publishedId (generation : Nat) (id : Int) : BitVec 64 :=
  BitVec.ofInt 64 id <<< 16 ||| configGeneration generation &&& 0xffff#64

theorem getLsbD_mask (x : BitVec 64) (i : Nat) : (x &&& 0xffff#64).getLsbD i = (decide (i < 16) && x.getLsbD i) := by
  have h : (0xffff#64).getLsbD i = decide (i < 16) := by
    rw [show (0xffff#64) = BitVec.ofNat 64 (2 ^ 16 - 1) from rfl, BitVec.getLsbD_ofNat, Nat.testBit_two_pow_sub_one,
      Bool.eq_iff_iff]
    simp only [Bool.and_eq_true, decide_eq_true_eq]
    omega
  rw [BitVec.getLsbD_and, h, Bool.and_comm]

/-- Masks compare the low 16 bits. -/
theorem mask_eq_iff {x y : BitVec 64} : x &&& 0xffff#64 = y &&& 0xffff#64 ↔ ∀ i < 16, x.getLsbD i = y.getLsbD i := by
  constructor
  · intro h i hi
    have hbit := congrArg (BitVec.getLsbD · i) h
    simp only [getLsbD_mask, hi, decide_true, Bool.true_and] at hbit
    exact hbit
  · intro h
    apply BitVec.eq_of_getLsbD_eq
    intro i _
    rw [getLsbD_mask, getLsbD_mask]
    by_cases hi : i < 16
    · simp [hi, h i hi]
    · simp [hi]

theorem mask_xor_eq_zero {x y : BitVec 64} :
    (x ^^^ y) &&& 0xffff#64 = 0#64 ↔ x &&& 0xffff#64 = y &&& 0xffff#64 := by
  have hzero : (0#64) = 0#64 &&& 0xffff#64 := rfl
  rw [hzero, mask_eq_iff, mask_eq_iff]
  simp

/-- Generations with the same low 16 bits are equal up to a multiple of 65536. -/
theorem configGeneration_mask_eq_iff {g g' : Nat} :
    configGeneration g &&& 0xffff#64 = configGeneration g' &&& 0xffff#64 ↔ g % 65536 = g' % 65536 := by
  have hpow : 65536 = 2 ^ 16 := rfl
  have hbit (a i : Nat) (hi : i < 16) : (configGeneration a).getLsbD i = (a % 65536).testBit i := by
    rw [hpow, Nat.testBit_mod_two_pow, configGeneration, BitVec.getLsbD_setWidth, BitVec.getLsbD_ofNat]
    simp [hi, show i < 64 by omega, show i < 32 by omega]
  rw [mask_eq_iff]
  constructor
  · intro h
    apply Nat.eq_of_testBit_eq
    intro i
    by_cases hi : i < 16
    · rw [← hbit g i hi, ← hbit g' i hi, h i hi]
    · rw [hpow, Nat.testBit_mod_two_pow, Nat.testBit_mod_two_pow]
      simp [hi]
  · intro h i hi
    rw [hbit g i hi, hbit g' i hi, h]

theorem publishedId_mask (g : Nat) (id : Int) :
    publishedId g id &&& 0xffff#64 = configGeneration g &&& 0xffff#64 := by
  rw [mask_eq_iff]
  intro i hi
  rw [publishedId, BitVec.getLsbD_or, getLsbD_mask, BitVec.getLsbD_shiftLeft]
  simp [hi]

/-- A number with the low bits of a generation is the published number of the query that its other bits name. -/
theorem eq_publishedId {g : Nat} {x : BitVec 64} (h : (x ^^^ configGeneration g) &&& 0xffff#64 = 0#64) :
    x = publishedId g (x.sshiftRight 16).toInt := by
  rw [mask_xor_eq_zero, mask_eq_iff] at h
  apply BitVec.eq_of_getLsbD_eq
  intro i hi
  rw [publishedId, BitVec.ofInt_toInt, BitVec.getLsbD_or, getLsbD_mask, BitVec.getLsbD_shiftLeft]
  by_cases hlow : i < 16
  · simp [hlow, h i hlow]
  · rw [BitVec.getLsbD_sshiftRight]
    simp [hlow, hi, show 16 + (i - 16) = i by omega, show ¬ 64 ≤ i - 16 by omega]

end OutboundQuery

/-! ## Data -/

/-- A query of a client: how often `set_config` had been called for the client's configuration, and the client's own
number of the query. -/
structure OutboundQuery where
  generation : Nat
  id : Int
  deriving DecidableEq

namespace OutboundQuery

/-- The number in the query's `updateSendLiteServerQuery`. -/
def published (q : OutboundQuery) : BitVec 64 := publishedId q.generation q.id

end OutboundQuery

/-- An `onLiteServerQueryResult`, or an `onLiteServerQueryError` with code and message. -/
structure OutboundAnswer where
  id : BitVec 64
  result : Except Status (List UInt8)
  /-- The query that the application answers; `none`: the number is invented. -/
  answers : Option OutboundQuery

/-- What the query's promise gets. -/
def OutboundAnswer.toResult (a : OutboundAnswer) : Except Status (List UInt8) :=
  a.result.mapError (·.withPrefix TonlibError.liteServerNetwork)

/-- `ExtClientOutboundImp`, with the calls of `on_query_result` that wait for it. -/
structure ExtClientOutbound where
  nextQueryId : Int := 1
  queries : List Int := []
  mailbox : List OutboundAnswer := []

/-- The fields of `TonlibClient` for outbound queries; `clients`: the clients that are alive, by the configuration they
were made for; `updates`: the queries that the application was handed. -/
structure Outbound where
  configGeneration : Nat := 0
  extClientOutbound : Option Nat := none
  clients : Nat → Option ExtClientOutbound := fun _ => none
  updates : List OutboundQuery := []

namespace Outbound

/-! ## The requests -/

/-- What happens. A client gets its queries and answers as messages; it is torn down after its owner let it go. -/
inductive Event
  | setConfig (useCallbacksForNetwork : Bool)
  | sendQuery (generation : Nat) (data : List UInt8)
  | onLiteServerQuery (answer : OutboundAnswer)
  | onQueryResult (generation : Nat)
  | tearDown (generation : Nat)

/-- What the application and the callers see of it. -/
inductive Output
  | updateSendLiteServerQuery (query : OutboundQuery) (id : BitVec 64) (data : List UInt8)
  /-- The promise of a query is set, by an answer or by the end of its client. -/
  | resolved (query : OutboundQuery) (answer : Option OutboundAnswer) (result : Except Status (List UInt8))
  | reply (answer : OutboundAnswer) (result : Except Status Unit)

/-- `set_config` and `init_ext_client`. -/
def setConfig (useCallbacksForNetwork : Bool) (s : Outbound) : Outbound :=
  let generation := s.configGeneration + 1
  if useCallbacksForNetwork then
    { s with
      configGeneration := generation
      extClientOutbound := some generation
      clients := Function.update s.clients generation (some {}) }
  else
    { s with configGeneration := generation, extClientOutbound := none }

/-- `ExtClientOutboundImp::send_query`. -/
def sendQuery (generation : Nat) (data : List UInt8) (client : ExtClientOutbound) (s : Outbound) :
    List Output × Outbound :=
  let queryId := client.nextQueryId
  let query := ⟨generation, queryId⟩
  let client := { client with nextQueryId := queryId + 1, queries := client.queries ++ [queryId] }
  ([.updateSendLiteServerQuery query (OutboundQuery.publishedId generation queryId) data],
    { s with clients := Function.update s.clients generation (some client), updates := s.updates ++ [query] })

/-- `do_request(onLiteServerQueryResult)` and `do_request(onLiteServerQueryError)`. -/
def onLiteServerQuery (a : OutboundAnswer) (s : Outbound) : List Output × Outbound := match s.extClientOutbound with
  | none => ([.reply a (.error TonlibError.invalidQueryId)], s)
  | some generation =>
    if (a.id ^^^ OutboundQuery.configGeneration s.configGeneration) &&& 0xffff#64 ≠ 0#64 then
      ([.reply a (.error TonlibError.invalidQueryId)], s)
    else match s.clients generation with
      -- a client that is gone gets no message
      | none => ([], s)
      | some client =>
        let client := { client with mailbox := client.mailbox ++ [a] }
        ([], { s with clients := Function.update s.clients generation (some client) })

/-- `ExtClientOutboundImp::on_query_result`, for the first message that waits. -/
def onQueryResult (generation : Nat) (a : OutboundAnswer) (mailbox : List OutboundAnswer) (client : ExtClientOutbound)
    (s : Outbound) : List Output × Outbound :=
  let id := (a.id.sshiftRight 16).toInt
  if id ∈ client.queries then
    let client := { client with queries := client.queries.erase id, mailbox := mailbox }
    ([.resolved ⟨generation, id⟩ (some a) a.toResult, .reply a (.ok ())],
      { s with clients := Function.update s.clients generation (some client) })
  else
    let client := { client with mailbox := mailbox }
    ([.reply a (.error (TonlibError.internal "Unknown query id"))],
      { s with clients := Function.update s.clients generation (some client) })

/-- `ExtClientOutboundImp::tear_down`. -/
def tearDown (generation : Nat) (client : ExtClientOutbound) (s : Outbound) : List Output × Outbound :=
  (client.queries.map fun id => .resolved ⟨generation, id⟩ none (.error TonlibError.cancelled),
    { s with clients := Function.update s.clients generation none })

/-- An event with what it shows; `none`: it cannot happen. An application answers what it was handed, under the number
that it was handed, or invents a number. -/
def step (s : Outbound) : Event → Option (List Output × Outbound)
  | .setConfig useCallbacksForNetwork => some ([], s.setConfig useCallbacksForNetwork)
  | .sendQuery generation data => (s.clients generation).map fun client => s.sendQuery generation data client
  | .onLiteServerQuery a =>
    if ∀ q ∈ a.answers, q ∈ s.updates ∧ a.id = q.published then some (s.onLiteServerQuery a) else none
  | .onQueryResult generation => (s.clients generation).bind fun client => match client.mailbox with
    | [] => none
    | a :: mailbox => some (s.onQueryResult generation a mailbox client)
  | .tearDown generation => (s.clients generation).map fun client => s.tearDown generation client

/-- A step, with what it shows. -/
def Step (s : Outbound) (e : Event × List Output) (s' : Outbound) : Prop := s.step e.1 = some (e.2, s')

theorem Step.sendQuery {s : Outbound} {g : Nat} {client : ExtClientOutbound} (h : s.clients g = some client)
    (data : List UInt8) : Step s (.sendQuery g data, (s.sendQuery g data client).1) (s.sendQuery g data client).2 := by
  simp [Step, step, h]

theorem Step.onLiteServerQuery {s : Outbound} {a : OutboundAnswer}
    (h : ∀ q ∈ a.answers, q ∈ s.updates ∧ a.id = q.published) :
    Step s (.onLiteServerQuery a, (s.onLiteServerQuery a).1) (s.onLiteServerQuery a).2 :=
  if_pos h

theorem Step.onQueryResult {s : Outbound} {g : Nat} {a : OutboundAnswer} {mailbox : List OutboundAnswer}
    {client : ExtClientOutbound} (h : s.clients g = some client) (hmailbox : client.mailbox = a :: mailbox) :
    Step s (.onQueryResult g, (s.onQueryResult g a mailbox client).1) (s.onQueryResult g a mailbox client).2 := by
  simp [Step, step, h, hmailbox]

/-! ## The law -/

/-- Everything that was seen. -/
def outputs (es : List (Event × List Output)) : List Output := es.flatMap (·.2)

def Output.resolvedQuery : Output → Option OutboundQuery
  | .resolved q _ _ => some q
  | _ => none

/-- The queries whose promises were set. -/
def resolvedQueries (es : List (Event × List Output)) : List OutboundQuery :=
  (outputs es).filterMap Output.resolvedQuery

def Event.isSetConfig : Event → Bool
  | .setConfig _ => true
  | _ => false

/-- The configuration generation after some events: the calls of `set_config`. -/
def generation (es : List (Event × List Output)) : Nat := es.countP fun e => e.1.isSetConfig

/-- An answer was accepted when the configuration generation was `g`. -/
def Received (es : List (Event × List Output)) (a : OutboundAnswer) (g : Nat) : Prop :=
  ∃ before after, es = before ++ (.onLiteServerQuery a, []) :: after ∧ generation before = g

/-- An answer resolves a query only under the number that was handed out for this very query, and only if it came while
the query's configuration was the current one. -/
def Named (es : List (Event × List Output)) : Prop := ∀ before e outs after q a r,
  es = before ++ (e, outs) :: after → .resolved q (some a) r ∈ outs →
    (∃ data, .updateSendLiteServerQuery q a.id data ∈ outputs before) ∧ Received before a q.generation

/-- Every query is resolved at most once. -/
def Once (es : List (Event × List Output)) : Prop := (resolvedQueries es).Nodup

/-- No answer to a query of an earlier generation resolves a query. -/
def NeverLate (es : List (Event × List Output)) : Prop := ∀ q a r q₀,
  .resolved q (some a) r ∈ outputs es → a.answers = some q₀ → ¬ q₀.generation < q.generation

/-- An answer to a query of an earlier generation resolves a query only after a multiple of 65536 configurations. -/
def LateAfterWrap (es : List (Event × List Output)) : Prop := ∀ q a r q₀,
  .resolved q (some a) r ∈ outputs es → a.answers = some q₀ → q₀.generation < q.generation →
    65536 ∣ q.generation - q₀.generation

@[simp] theorem outputs_append (es : List (Event × List Output)) (x : Event × List Output) :
    outputs (es ++ [x]) = outputs es ++ x.2 := by
  simp [outputs]

@[simp] theorem resolvedQueries_append (es : List (Event × List Output)) (x : Event × List Output) :
    resolvedQueries (es ++ [x]) = resolvedQueries es ++ x.2.filterMap Output.resolvedQuery := by
  simp [resolvedQueries]

@[simp] theorem generation_append (es : List (Event × List Output)) (x : Event × List Output) :
    generation (es ++ [x]) = generation es + (if x.1.isSetConfig then 1 else 0) := by
  simp [generation, List.countP_cons]

theorem Received.append {es : List (Event × List Output)} {a : OutboundAnswer} {g : Nat} (h : Received es a g)
    (x : Event × List Output) : Received (es ++ [x]) a g := by
  obtain ⟨before, after, rfl, hg⟩ := h
  exact ⟨before, after ++ [x], by simp, hg⟩

/-! ## The invariant -/

/-- What holds of the client of generation `g`: the queries it keeps were handed out and are not resolved, and the
answers that wait for it carry its generation. -/
structure ClientInv (es : List (Event × List Output)) (g : Nat) (client : ExtClientOutbound) : Prop where
  queries_lt : ∀ n ∈ client.queries, n < client.nextQueryId
  nodup : client.queries.Nodup
  updated : ∀ n ∈ client.queries, ∃ data,
    .updateSendLiteServerQuery ⟨g, n⟩ (OutboundQuery.publishedId g n) data ∈ outputs es
  unresolved : ∀ n ∈ client.queries, ⟨g, n⟩ ∉ resolvedQueries es
  resolved_lt : ∀ n, ⟨g, n⟩ ∈ resolvedQueries es → n < client.nextQueryId
  received : ∀ a ∈ client.mailbox, Received es a g
  masked : ∀ a ∈ client.mailbox, (a.id ^^^ OutboundQuery.configGeneration g) &&& 0xffff#64 = 0#64

/-- What holds after some events. -/
structure Inv (es : List (Event × List Output)) (s : Outbound) : Prop where
  generation_eq : s.configGeneration = generation es
  current : ∀ g, s.extClientOutbound = some g → g = s.configGeneration
  clients_le : ∀ g client, s.clients g = some client → g ≤ s.configGeneration
  client : ∀ g client, s.clients g = some client → ClientInv es g client
  resolved_le : ∀ q ∈ resolvedQueries es, q.generation ≤ s.configGeneration
  once : Once es

section Run

variable {s s' : Outbound} {es : List (Event × List Output)} {e : Event} {outs : List Output} {g : Nat}
  {client : ExtClientOutbound}

/-- An event that resolves nothing of a client keeps what holds of it. -/
theorem ClientInv.append (h : ClientInv es g client) {x : Event × List Output}
    (hx : ∀ q ∈ x.2.filterMap Output.resolvedQuery, q.generation ≠ g) : ClientInv (es ++ [x]) g client := by
  constructor
  · exact h.queries_lt
  · exact h.nodup
  · intro n hn
    obtain ⟨data, hdata⟩ := h.updated n hn
    exact ⟨data, by simp [hdata]⟩
  · intro n hn hmem
    rw [resolvedQueries_append, List.mem_append] at hmem
    rcases hmem with hmem | hmem
    · exact h.unresolved n hn hmem
    · exact hx _ hmem rfl
  · intro n hmem
    rw [resolvedQueries_append, List.mem_append] at hmem
    rcases hmem with hmem | hmem
    · exact h.resolved_lt n hmem
    · exact absurd rfl (hx _ hmem)
  · intro a ha
    exact (h.received a ha).append x
  · exact h.masked

/-- A client that was just made. -/
theorem ClientInv.new (h : ∀ q ∈ resolvedQueries es, q.generation ≠ g) : ClientInv es g {} := by
  constructor
  · intro n hn
    cases hn
  · exact List.nodup_nil
  · intro n hn
    cases hn
  · intro n hn
    cases hn
  · intro n hmem
    exact absurd rfl (h _ hmem)
  · intro a ha
    cases ha
  · intro a ha
    cases ha

/-- What an event leaves that concerns one client. -/
theorem Inv.update (h : Inv es s) {x : Event × List Output} {client' : Option ExtClientOutbound}
    (hconfig : x.1.isSetConfig = false) (hgeneration : s'.configGeneration = s.configGeneration)
    (hcurrent : s'.extClientOutbound = s.extClientOutbound) (hclients : s'.clients = Function.update s.clients g client')
    (hle : g ≤ s.configGeneration) (hclient : ∀ c, client' = some c → ClientInv (es ++ [x]) g c)
    (hresolved : ∀ q ∈ x.2.filterMap Output.resolvedQuery, q.generation = g) (honce : Once (es ++ [x])) :
    Inv (es ++ [x]) s' := by
  constructor
  · rw [generation_append, hconfig, hgeneration, h.generation_eq]
    rfl
  · rw [hcurrent, hgeneration]
    exact h.current
  · intro i c hc
    rw [hgeneration]
    rw [hclients, Function.update_apply] at hc
    split at hc
    · next hi => rwa [hi]
    · exact h.clients_le i c hc
  · intro i c hc
    rw [hclients, Function.update_apply] at hc
    split at hc
    · next hi =>
      rw [hi]
      exact hclient c hc
    · next hi =>
      refine (h.client i c hc).append ?_
      intro q hq hqi
      exact hi (hqi.symm.trans (hresolved q hq))
  · intro q hq
    rw [resolvedQueries_append, List.mem_append] at hq
    rw [hgeneration]
    rcases hq with hq | hq
    · exact h.resolved_le q hq
    · rwa [hresolved q hq]
  · exact honce

/-- An event that resolves nothing keeps that nothing is resolved twice. -/
theorem Once.append (h : Once es) {x : Event × List Output} (hx : x.2.filterMap Output.resolvedQuery = []) :
    Once (es ++ [x]) := by
  unfold Once
  rwa [resolvedQueries_append, hx, List.append_nil]

theorem inv_init : Inv [] {} := by
  constructor
  · rfl
  · intro g hg
    cases hg
  · intro g client hclient
    cases hclient
  · intro g client hclient
    cases hclient
  · intro q hq
    cases hq
  · exact List.nodup_nil

/-- A new configuration gets a generation of its own, and a new client nothing was resolved for. -/
theorem Inv.setConfig (h : Inv es s) (useCallbacksForNetwork : Bool) :
    Inv (es ++ [(.setConfig useCallbacksForNetwork, [])]) (s.setConfig useCallbacksForNetwork) := by
  have hgeneration : (s.setConfig useCallbacksForNetwork).configGeneration = s.configGeneration + 1 := by
    unfold Outbound.setConfig
    split <;> rfl
  have hresolved : resolvedQueries (es ++ [(.setConfig useCallbacksForNetwork, [])]) = resolvedQueries es := by simp
  have hkept (g : Nat) (client : ExtClientOutbound) (hclient : s.clients g = some client) :
      ClientInv (es ++ [(.setConfig useCallbacksForNetwork, [])]) g client := by
    refine (h.client g client hclient).append ?_
    intro q hq
    cases hq
  constructor
  · rw [hgeneration, generation_append, h.generation_eq]
    rfl
  · rw [hgeneration]
    intro g hg
    cases useCallbacksForNetwork with
    | true =>
      cases hg
      rfl
    | false => cases hg
  · rw [hgeneration]
    intro g client hclient
    cases useCallbacksForNetwork with
    | true =>
      simp only [Outbound.setConfig, if_true, Function.update_apply] at hclient
      split at hclient
      · next hg => omega
      · have := h.clients_le g client hclient
        omega
    | false =>
      have := h.clients_le g client hclient
      omega
  · intro g client hclient
    cases useCallbacksForNetwork with
    | true =>
      simp only [Outbound.setConfig, if_true, Function.update_apply] at hclient
      split at hclient
      · next hg =>
        cases hclient
        apply ClientInv.new
        rw [hresolved]
        intro q hq
        have := h.resolved_le q hq
        omega
      · exact hkept g client hclient
    | false => exact hkept g client hclient
  · rw [hresolved, hgeneration]
    intro q hq
    have := h.resolved_le q hq
    omega
  · exact h.once.append rfl

/-- A query is kept under a number that no query of its client had. -/
theorem Inv.sendQuery (h : Inv es s) (hclient : s.clients g = some client) (data : List UInt8) :
    Inv (es ++ [(.sendQuery g data, (s.sendQuery g data client).1)]) (s.sendQuery g data client).2 := by
  have hold := h.client g client hclient
  refine h.update rfl rfl rfl rfl (h.clients_le g client hclient) ?_ ?_ (h.once.append rfl)
  · rintro c ⟨⟩
    have hmono : ClientInv (es ++ [(.sendQuery g data, (s.sendQuery g data client).1)]) g client := by
      refine hold.append ?_
      intro q hq
      cases hq
    constructor
    · intro n hn
      rcases List.mem_append.1 hn with hn | hn
      · have := hold.queries_lt n hn
        dsimp only
        omega
      · rw [List.mem_singleton] at hn
        dsimp only
        omega
    · refine List.nodup_append.2 ⟨hold.nodup, List.nodup_singleton _, ?_⟩
      intro m hm n hn hmn
      rw [List.mem_singleton] at hn
      have := hold.queries_lt m hm
      omega
    · intro n hn
      rcases List.mem_append.1 hn with hn | hn
      · exact hmono.updated n hn
      · rw [List.mem_singleton] at hn
        subst hn
        exact ⟨data, by simp [Outbound.sendQuery]⟩
    · intro n hn
      rcases List.mem_append.1 hn with hn | hn
      · exact hmono.unresolved n hn
      · intro hmem
        rw [List.mem_singleton] at hn
        have := hmono.resolved_lt n hmem
        omega
    · intro n hmem
      have := hmono.resolved_lt n hmem
      dsimp only
      omega
    · exact hmono.received
    · exact hmono.masked
  · intro q hq
    cases hq

/-- An answer that waits carries the current generation. -/
theorem Inv.onLiteServerQuery (h : Inv es s) (a : OutboundAnswer) :
    Inv (es ++ [(.onLiteServerQuery a, (s.onLiteServerQuery a).1)]) (s.onLiteServerQuery a).2 := by
  -- an event that leaves the clients alone
  have hsame (outs : List Output) (hnone : outs.filterMap Output.resolvedQuery = []) :
      Inv (es ++ [(.onLiteServerQuery a, outs)]) s := by
    constructor
    · rw [h.generation_eq, generation_append]
      rfl
    · exact h.current
    · exact h.clients_le
    · intro g client hclient
      refine (h.client g client hclient).append ?_
      rw [hnone]
      intro q hq
      cases hq
    · intro q hq
      rw [resolvedQueries_append, hnone, List.append_nil] at hq
      exact h.resolved_le q hq
    · exact h.once.append hnone
  unfold Outbound.onLiteServerQuery
  split
  · exact hsame _ rfl
  · next generation hcurrent =>
    split
    · exact hsame _ rfl
    · next hmask =>
      split
      · exact hsame _ rfl
      · next client hclient =>
        have hgeneration := h.current generation hcurrent
        have hmono : ClientInv (es ++ [(.onLiteServerQuery a, [])]) generation client := by
          refine (h.client generation client hclient).append ?_
          intro q hq
          cases hq
        refine h.update rfl rfl rfl rfl (h.clients_le generation client hclient) ?_ ?_ (h.once.append rfl)
        · rintro c ⟨⟩
          constructor
          · exact hmono.queries_lt
          · exact hmono.nodup
          · exact hmono.updated
          · exact hmono.unresolved
          · exact hmono.resolved_lt
          · intro b hb
            rcases List.mem_append.1 hb with hb | hb
            · exact hmono.received b hb
            · rw [List.mem_singleton] at hb
              subst hb
              exact ⟨es, [], rfl, by rw [hgeneration, h.generation_eq]⟩
          · intro b hb
            rcases List.mem_append.1 hb with hb | hb
            · exact hmono.masked b hb
            · rw [List.mem_singleton] at hb
              subst hb
              rw [hgeneration]
              exact not_not.1 hmask
        · intro q hq
          cases hq

/-- A client that loses its first message. -/
theorem ClientInv.tail {a : OutboundAnswer} {mailbox : List OutboundAnswer} (h : ClientInv es g client)
    (hmailbox : client.mailbox = a :: mailbox) : ClientInv es g { client with mailbox := mailbox } := by
  constructor
  · exact h.queries_lt
  · exact h.nodup
  · exact h.updated
  · exact h.unresolved
  · exact h.resolved_lt
  · intro b hb
    exact h.received b (hmailbox ▸ List.mem_cons_of_mem a hb)
  · intro b hb
    exact h.masked b (hmailbox ▸ List.mem_cons_of_mem a hb)

/-- An answer resolves a query that waits, and takes it away. -/
theorem Inv.onQueryResult {a : OutboundAnswer} {mailbox : List OutboundAnswer} (h : Inv es s)
    (hclient : s.clients g = some client) (hmailbox : client.mailbox = a :: mailbox) :
    Inv (es ++ [(.onQueryResult g, (s.onQueryResult g a mailbox client).1)])
      (s.onQueryResult g a mailbox client).2 := by
  have hold := (h.client g client hclient).tail hmailbox
  have hle := h.clients_le g client hclient
  unfold Outbound.onQueryResult
  dsimp only
  split
  · next hwaits =>
    generalize (a.id.sshiftRight 16).toInt = id at hwaits
    have hresolved : [Output.resolved ⟨g, id⟩ (some a) a.toResult, .reply a (.ok ())].filterMap Output.resolvedQuery =
        [⟨g, id⟩] := rfl
    refine h.update rfl rfl rfl rfl hle ?_ ?_ ?_
    · rintro c ⟨⟩
      constructor
      · intro n hn
        exact hold.queries_lt n (List.mem_of_mem_erase hn)
      · exact hold.nodup.erase _
      · intro n hn
        obtain ⟨data, hdata⟩ := hold.updated n (List.mem_of_mem_erase hn)
        exact ⟨data, by simp [hdata]⟩
      · intro n hn hmem
        obtain ⟨hne, hn⟩ := hold.nodup.mem_erase_iff.1 hn
        rw [resolvedQueries_append, hresolved, List.mem_append, List.mem_singleton] at hmem
        rcases hmem with hmem | hmem
        · exact hold.unresolved n hn hmem
        · exact hne (OutboundQuery.mk.inj hmem).2
      · intro n hmem
        rw [resolvedQueries_append, hresolved, List.mem_append, List.mem_singleton] at hmem
        rcases hmem with hmem | hmem
        · exact hold.resolved_lt n hmem
        · rw [(OutboundQuery.mk.inj hmem).2]
          exact hold.queries_lt _ hwaits
      · intro b hb
        exact (hold.received b hb).append _
      · exact hold.masked
    · rw [hresolved]
      intro q hq
      rw [List.mem_singleton.1 hq]
    · unfold Once
      rw [resolvedQueries_append, hresolved]
      refine List.nodup_append.2 ⟨h.once, List.nodup_singleton _, ?_⟩
      intro p hp q hq hpq
      rw [List.mem_singleton] at hq
      refine hold.unresolved id hwaits ?_
      rwa [← hq, ← hpq]
  · refine h.update rfl rfl rfl rfl hle ?_ ?_ (h.once.append rfl)
    · rintro c ⟨⟩
      refine hold.append ?_
      intro q hq
      cases hq
    · intro q hq
      cases hq

/-- The end of a client resolves the queries that still wait. -/
theorem Inv.tearDown (h : Inv es s) (hclient : s.clients g = some client) :
    Inv (es ++ [(.tearDown g, (s.tearDown g client).1)]) (s.tearDown g client).2 := by
  have hold := h.client g client hclient
  have hqueries : (s.tearDown g client).1.filterMap Output.resolvedQuery = client.queries.map (OutboundQuery.mk g) := by
    rw [Outbound.tearDown, List.filterMap_map, ← List.filterMap_eq_map]
    rfl
  refine h.update rfl rfl rfl rfl (h.clients_le g client hclient) ?_ ?_ ?_
  · intro c hc
    cases hc
  · intro q hq
    rw [hqueries, List.mem_map] at hq
    obtain ⟨n, -, rfl⟩ := hq
    rfl
  · unfold Once
    rw [resolvedQueries_append, hqueries]
    refine List.nodup_append.2 ⟨h.once, hold.nodup.map ?_, ?_⟩
    · intro m n hmn
      exact (OutboundQuery.mk.inj hmn).2
    · intro p hp q hq hpq
      obtain ⟨n, hn, rfl⟩ := List.mem_map.1 hq
      exact hold.unresolved n hn (hpq ▸ hp)

theorem Inv.step (h : Inv es s) (hstep : Step s (e, outs) s') : Inv (es ++ [(e, outs)]) s' := by
  unfold Step at hstep
  cases e with
  | setConfig useCallbacksForNetwork =>
    cases hstep
    exact h.setConfig useCallbacksForNetwork
  | sendQuery g data =>
    obtain ⟨client, hclient, heq⟩ := Option.map_eq_some_iff.1 hstep
    cases heq
    exact h.sendQuery hclient data
  | onLiteServerQuery a =>
    simp only [Outbound.step] at hstep
    split at hstep
    · have heq : s.onLiteServerQuery a = (outs, s') := Option.some.inj hstep
      have hinv := h.onLiteServerQuery a
      rwa [heq] at hinv
    · cases hstep
  | onQueryResult g =>
    obtain ⟨client, hclient, heq⟩ := Option.bind_eq_some_iff.1 hstep
    split at heq
    · cases heq
    · next a mailbox hmailbox =>
      have heq : s.onQueryResult g a mailbox client = (outs, s') := Option.some.inj heq
      have hinv := h.onQueryResult hclient hmailbox
      rwa [heq] at hinv
  | tearDown g =>
    obtain ⟨client, hclient, heq⟩ := Option.map_eq_some_iff.1 hstep
    cases heq
    exact h.tearDown hclient

theorem inv_of_run (h : Run Step {} es s) : Inv es s := by
  induction h with
  | nil => exact inv_init
  | snoc _ hstep ih => exact ih.step hstep

/-! ## What an answer resolves -/

/-- Only the first message of a client resolves a query by an answer. -/
theorem resolved_cases {q : OutboundQuery} {a : OutboundAnswer} {r : Except Status (List UInt8)}
    (hstep : Step s (e, outs) s') (hmem : .resolved q (some a) r ∈ outs) :
    ∃ client mailbox, s.clients q.generation = some client ∧ client.mailbox = a :: mailbox ∧ q.id ∈ client.queries ∧
      q.id = (a.id.sshiftRight 16).toInt := by
  unfold Step at hstep
  cases e with
  | setConfig useCallbacksForNetwork =>
    cases hstep
    cases hmem
  | sendQuery g data =>
    obtain ⟨client, hclient, heq⟩ := Option.map_eq_some_iff.1 hstep
    cases heq
    simp at hmem
  | onLiteServerQuery b =>
    simp only [Outbound.step, onLiteServerQuery] at hstep
    split at hstep
    · replace hstep := Option.some.inj hstep
      split at hstep
      · cases hstep
        simp at hmem
      · split at hstep
        · cases hstep
          simp at hmem
        · split at hstep <;>
          · cases hstep
            cases hmem
    · cases hstep
  | onQueryResult g =>
    obtain ⟨client, hclient, heq⟩ := Option.bind_eq_some_iff.1 hstep
    split at heq
    · cases heq
    · next b mailbox hmailbox =>
      replace heq := Option.some.inj heq
      simp only [onQueryResult] at heq
      split at heq
      · next hwaits =>
        obtain ⟨rfl, -⟩ := Prod.mk.inj heq
        rw [List.mem_cons, List.mem_singleton] at hmem
        rcases hmem with hmem | hmem
        · obtain ⟨rfl, hab, -⟩ := Output.resolved.inj hmem
          cases hab
          exact ⟨client, mailbox, hclient, hmailbox, hwaits, rfl⟩
        · cases hmem
      · obtain ⟨rfl, -⟩ := Prod.mk.inj heq
        simp at hmem
  | tearDown g =>
    obtain ⟨client, hclient, heq⟩ := Option.map_eq_some_iff.1 hstep
    cases heq
    simp at hmem

/-- A query resolved by an answer has the answer's number. -/
theorem Inv.id_eq {q : OutboundQuery} {a : OutboundAnswer} {r : Except Status (List UInt8)} (h : Inv es s)
    (hstep : Step s (e, outs) s') (hmem : .resolved q (some a) r ∈ outs) : a.id = q.published := by
  obtain ⟨client, mailbox, hclient, hmailbox, -, hid⟩ := resolved_cases hstep hmem
  have hmask := (h.client _ client hclient).masked a (by simp [hmailbox])
  rw [OutboundQuery.published, hid]
  exact OutboundQuery.eq_publishedId hmask

theorem named_of_run (h : Run Step {} es s) : Named es := by
  intro before e outs after q a r hes hmem
  rw [hes] at h
  obtain ⟨t, v, hrun, hstep⟩ := h.at_event
  have hinv := inv_of_run hrun
  obtain ⟨client, mailbox, hclient, hmailbox, hwaits, -⟩ := resolved_cases hstep hmem
  have hold := hinv.client _ client hclient
  constructor
  · rw [hinv.id_eq hstep hmem]
    exact hold.updated q.id hwaits
  · exact hold.received a (by simp [hmailbox])

theorem lateAfterWrap_of_run (h : Run Step {} es s) : LateAfterWrap es := by
  intro q a r q₀ hmem hanswers hlt
  obtain ⟨⟨e, outs⟩, he, hmem⟩ := List.mem_flatMap.1 hmem
  obtain ⟨before, after, hes⟩ := List.append_of_mem he
  have hid : a.id = q.published := by
    rw [hes] at h
    obtain ⟨t, v, hrun, hstep⟩ := h.at_event
    exact (inv_of_run hrun).id_eq hstep hmem
  -- the answer was accepted, so its number is that of the query it answers
  have hid₀ : a.id = q₀.published := by
    obtain ⟨-, b, c, hbefore, -⟩ := named_of_run h before e outs after q a r hes hmem
    rw [hes, hbefore, List.append_assoc] at h
    obtain ⟨t, v, -, hstep⟩ := h.at_event
    simp only [Step, Outbound.step] at hstep
    split at hstep
    · next hknown => exact (hknown q₀ hanswers).2
    · cases hstep
  have hmod : q₀.generation % 65536 = q.generation % 65536 := by
    rw [← OutboundQuery.configGeneration_mask_eq_iff, ← OutboundQuery.publishedId_mask _ q₀.id,
      ← OutboundQuery.publishedId_mask _ q.id]
    exact congrArg (· &&& 0xffff#64) (hid₀.symm.trans hid)
  omega

/-- An answer resolves a query only under the query's own number, while its configuration is the current one, and once;
one to a query of an earlier generation only when the low 16 bits of the generation have come around. -/
theorem resolves_of_run (h : Run Step {} es s) : Named es ∧ Once es ∧ LateAfterWrap es :=
  ⟨named_of_run h, (inv_of_run h).once, lateAfterWrap_of_run h⟩

end Run

namespace Sample

/-- An answer to the first query of the first configuration. -/
def answer : OutboundAnswer := ⟨65537#64, .ok [7], some ⟨1, 1⟩⟩

def configured : Outbound := Outbound.setConfig true {}
def asked : Outbound := (configured.sendQuery 1 [] {}).2

theorem run_asked : Run Step {}
    [(.setConfig true, []), (.sendQuery 1 [], [.updateSendLiteServerQuery ⟨1, 1⟩ 65537#64 []])] asked := by
  have hconfig : Step {} (.setConfig true, []) configured := rfl
  have hsend : Step configured (.sendQuery 1 [], [.updateSendLiteServerQuery ⟨1, 1⟩ 65537#64 []]) asked := rfl
  exact .snoc (.snoc .nil hconfig) hsend

/-- The query is answered at once. -/
def answered : List (Event × List Output) :=
  [(.setConfig true, []), (.sendQuery 1 [], [.updateSendLiteServerQuery ⟨1, 1⟩ 65537#64 []]),
    (.onLiteServerQuery answer, []),
    (.onQueryResult 1, [.resolved ⟨1, 1⟩ (some answer) (.ok [7]), .reply answer (.ok ())])]

theorem resolves_answered : Named answered ∧ Once answered ∧ LateAfterWrap answered := by
  have hanswer : Step asked (.onLiteServerQuery answer, []) (asked.onLiteServerQuery answer).2 := by
    apply Step.onLiteServerQuery
    rintro q ⟨⟩
    exact ⟨List.mem_singleton_self _, by decide⟩
  have hresult : Step (asked.onLiteServerQuery answer).2
      (.onQueryResult 1, [.resolved ⟨1, 1⟩ (some answer) (.ok [7]), .reply answer (.ok ())])
      ((asked.onLiteServerQuery answer).2.onQueryResult 1 answer [] ⟨2, [1], [answer]⟩).2 := rfl
  exact resolves_of_run (.snoc (.snoc run_asked hanswer) hresult)

/-- The state after `k + 1` further configurations. -/
def renewed (k : Nat) : Outbound := (Outbound.setConfig true)^[k + 1] asked

theorem renewed_succ (k : Nat) : renewed (k + 1) = (renewed k).setConfig true := Function.iterate_succ_apply' _ _ _

theorem renewed_eq (k : Nat) : (renewed k).configGeneration = k + 2 ∧ (renewed k).extClientOutbound = some (k + 2) ∧
    (renewed k).clients (k + 2) = some {} ∧ (renewed k).updates = [⟨1, 1⟩] := by
  induction k with
  | zero => exact ⟨rfl, rfl, rfl, rfl⟩
  | succ k ih =>
    obtain ⟨hgeneration, -, -, hupdates⟩ := ih
    rw [renewed_succ, Outbound.setConfig, hgeneration]
    exact ⟨rfl, rfl, Function.update_self _ _ _, hupdates⟩

theorem run_renewed (k : Nat) : ∃ es, Run Step {} es (renewed k) := by
  induction k with
  | zero =>
    have hstep : Step asked (.setConfig true, []) (renewed 0) := rfl
    exact ⟨_, run_asked.snoc hstep⟩
  | succ k ih =>
    obtain ⟨es, hrun⟩ := ih
    have hstep : Step (renewed k) (.setConfig true, []) (renewed (k + 1)) := by
      rw [renewed_succ]
      rfl
    exact ⟨_, hrun.snoc hstep⟩

/-- The first query of the client of generation `k + 2` is sent. -/
theorem run_renewed_asked (k : Nat) : ∃ es s, Run Step {} es s ∧ s.configGeneration = k + 2 ∧
    s.extClientOutbound = some (k + 2) ∧ s.clients (k + 2) = some ⟨2, [1], []⟩ ∧ ⟨1, 1⟩ ∈ s.updates := by
  obtain ⟨es, hrun⟩ := run_renewed k
  obtain ⟨hgeneration, hcurrent, hclient, hupdates⟩ := renewed_eq k
  refine ⟨_, _, hrun.snoc (Step.sendQuery hclient []), hgeneration, hcurrent, ?_, ?_⟩
  · simp [Outbound.sendQuery]
  · simp [Outbound.sendQuery, hupdates]

/-- After 65536 further configurations, the answer to the first query resolves the first query of the new client. -/
theorem not_neverLate_renewed : ¬ ∀ (es : List (Event × List Output)) (s : Outbound), Run Step {} es s →
    Named es ∧ Once es ∧ NeverLate es := by
  intro hclaim
  obtain ⟨es, s, hrun, hgeneration, hcurrent, hclient, hupdates⟩ := run_renewed_asked 65535
  rw [show 65535 + 2 = 65537 by omega] at hgeneration hcurrent hclient
  have hanswer : Step s (.onLiteServerQuery answer, (s.onLiteServerQuery answer).1) (s.onLiteServerQuery answer).2 := by
    apply Step.onLiteServerQuery
    rintro q ⟨⟩
    exact ⟨hupdates, by decide⟩
  -- the low 16 bits of generation 65537 are those of generation 1
  have hmask : (answer.id ^^^ OutboundQuery.configGeneration 65537) &&& 0xffff#64 = 0#64 := by decide
  have hwaiting : (s.onLiteServerQuery answer).2.clients 65537 = some ⟨2, [1], [answer]⟩ := by
    simp [Outbound.onLiteServerQuery, hcurrent, hgeneration, hmask, hclient]
  have hrun := (hrun.snoc hanswer).snoc (Step.onQueryResult hwaiting rfl)
  refine (hclaim _ _ hrun).2.2 ⟨65537, 1⟩ answer answer.toResult ⟨1, 1⟩ ?_ rfl (by decide)
  rw [outputs_append]
  apply List.mem_append_right
  exact List.mem_cons_self

end Sample

end Outbound

end TonWallet.Tonlib
