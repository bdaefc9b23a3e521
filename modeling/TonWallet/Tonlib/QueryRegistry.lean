/-
The created queries that `TonlibClient` keeps by number, for the requests that inspect, estimate, send and forget
them. A fee estimate looks its query up twice: when it is asked for, and again when the configuration has come.
-/
import Mathlib.Data.List.Nodup
import Mathlib.Logic.Function.Basic
import TonWallet.Lib.Run
import TonWallet.Vm.Cell

namespace TonWallet.Tonlib

open Lib TonWallet.Td TonWallet.Ton TonWallet.Vm

/-! ## Data -/

/-- `Query::Raw`. -/
structure RawQuery (Account : Type) where
  source : Account
  destinations : List Account
  validUntil : Nat
  message : Cell
  newState : Option Cell
  messageBody : Cell

/-- What queries are computed with: the accounts and the configuration, its cells as bytes, and the fees it will cost. -/
class QueryContext where
  Account : Type
  ConfigState : Type
  Fees : Type
  toBytes : Option Cell → List UInt8
  bodyHash : Cell → Bits256
  estimateFees : RawQuery Account → Bool → ConfigState → Result Fees

open QueryContext

/-- `query.info`. -/
structure QueryInfo where
  id : Int
  validUntil : Nat
  bodyHash : Bits256
  body : List UInt8
  initState : List UInt8

section

variable [QueryContext]

/-- The answer to a request; `waiting`: there is none yet. -/
inductive Reply
  | invalidQueryId
  | error (s : Status)
  | info (info : QueryInfo)
  | fees (fees : Fees)
  | ok
  | waiting

/-- The fields of `TonlibClient` for queries, and what is under way: creations, and the fee estimates (of a query, with
or without the check of its signature) that wait for the configuration. -/
structure QueryRegistry where
  nextQueryId : Int := 0
  queries : Int → Option (RawQuery Account) := fun _ => none
  creating : Nat := 0
  estimating : List (Int × Bool) := []

namespace QueryRegistry

/-! ## The requests -/

/-- `register_query`. -/
def registerQuery (query : RawQuery Account) (s : QueryRegistry) : Int × QueryRegistry :=
  let queryId := s.nextQueryId + 1
  (queryId, { s with nextQueryId := queryId, queries := Function.update s.queries queryId (some query) })

/-- `get_query_info`. -/
def getQueryInfo (id : Int) (s : QueryRegistry) : Reply := match s.queries id with
  | none => .invalidQueryId
  | some query => .info
    ⟨id, query.validUntil, bodyHash query.messageBody, toBytes (some query.messageBody), toBytes query.newState⟩

/-- `finish_create_query`. -/
def finishCreateQuery (r : Except Status (RawQuery Account)) (s : QueryRegistry) : Reply × QueryRegistry := match r with
  | .error status => (.error status, s)
  | .ok query =>
    let (id, s) := s.registerQuery query
    (s.getQueryInfo id, s)

/-- `query_estimate_fees`, with the configuration or why there is none. -/
def queryEstimateFees (id : Int) (ignoreChksig : Bool) (r : Except Status ConfigState) (s : QueryRegistry) : Reply :=
  match s.queries id with
  | none => .invalidQueryId
  | some query => match r with
    | .error status => .error status
    | .ok state => match tryPrefix ⟨500, "INTERNAL"⟩ (tryVm (estimateFees query ignoreChksig state)) with
      | .ok fees => .fees fees
      | .error (.status status) => .error status
      -- a failed `CHECK` ends the process instead
      | .error _ => .waiting

/-- What happens to the registry. -/
inductive Event
  | createQuery
  /-- With the error of a request whose fields are not in order. -/
  | rawCreateQuery (checked : Except Status Unit)
  | createQueryDone (r : Except Status (RawQuery Account))
  | queryGetInfo (id : Int)
  | queryEstimateFees (id : Int) (ignoreChksig : Bool)
  | lastConfig (id : Int) (ignoreChksig : Bool) (r : Except Status ConfigState)
  | querySend (id : Int)
  | queryForget (id : Int)

/-- The query that an event is about. -/
def Event.queryId : Event → Option Int
  | .createQuery | .rawCreateQuery _ | .createQueryDone _ => none
  | .queryGetInfo id | .queryEstimateFees id _ | .lastConfig id _ _ | .querySend id | .queryForget id => some id

/-- An event with the answer it gives; `none`: nothing of the kind is under way. -/
def step (s : QueryRegistry) : Event → Option (Reply × QueryRegistry)
  | .createQuery | .rawCreateQuery (.ok ()) => some (.waiting, { s with creating := s.creating + 1 })
  | .rawCreateQuery (.error status) => some (.error status, s)
  | .createQueryDone r =>
    if s.creating = 0 then none else some ({ s with creating := s.creating - 1 }.finishCreateQuery r)
  | .queryGetInfo id => some (s.getQueryInfo id, s)
  | .queryEstimateFees id ignoreChksig => match s.queries id with
    | none => some (.invalidQueryId, s)
    | some _ => some (.waiting, { s with estimating := s.estimating ++ [(id, ignoreChksig)] })
  | .lastConfig id ignoreChksig r =>
    if (id, ignoreChksig) ∈ s.estimating then
      some (s.queryEstimateFees id ignoreChksig r, { s with estimating := s.estimating.erase (id, ignoreChksig) })
    else none
  | .querySend id => match s.queries id with
    | none => some (.invalidQueryId, s)
    | some _ => some (.waiting, s)
  | .queryForget id => match s.queries id with
    | none => some (.invalidQueryId, s)
    -- nothing is erased
    | some _ => some (.ok, s)

/-- A step of the registry, with the answer. -/
def Step (s : QueryRegistry) (e : Event × Reply) (s' : QueryRegistry) : Prop := s.step e.1 = some (e.2, s')

/-! ## The live queries -/

/-- The query whose creation an event answers. -/
def createdBy : Event × Reply → Option Int
  | (.createQueryDone _, .info info) => some info.id
  | _ => none

/-- The query that an event has forgotten. -/
def forgottenBy : Event × Reply → Option Int
  | (.queryForget id, .ok) => some id
  | _ => none

/-- The queries that creations have returned. -/
def created (es : List (Event × Reply)) : List Int := es.filterMap createdBy

/-- The queries that were forgotten. -/
def forgotten (es : List (Event × Reply)) : List Int := es.filterMap forgottenBy

/-- A request, or the second look-up of an estimate, is accepted exactly when its query is live: it was returned by a
creation and has not been forgotten since. -/
def Lawful (es : List (Event × Reply)) : Prop := ∀ before e after id, es = before ++ e :: after → e.1.queryId = some id →
  (e.2 ≠ .invalidQueryId ↔ id ∈ created before ∧ id ∉ forgotten before)

/-- No query is named again after it was forgotten. -/
def ForgottenForGood (es : List (Event × Reply)) : Prop :=
  ∀ before e after id, es = before ++ e :: after → e.1.queryId = some id → id ∉ forgotten before

/-- What holds after some events: the queries kept are those that were created, each under a number of its own. -/
structure Inv (es : List (Event × Reply)) (s : QueryRegistry) : Prop where
  kept : ∀ id, (s.queries id).isSome ↔ id ∈ created es
  bounded : ∀ id ∈ created es, id ≤ s.nextQueryId
  nodup : (created es).Nodup
  forgotten_created : ∀ id ∈ forgotten es, id ∈ created es

section Run

variable {s s' : QueryRegistry} {es : List (Event × Reply)} {e : Event} {r : Reply}

theorem inv_init : Inv [] ({} : QueryRegistry) := ⟨by simp [created], by simp [created], List.nodup_nil, by simp [forgotten]⟩

/-- The queries change with a creation, and with nothing else. -/
theorem step_cases (h : Step s (e, r) s') :
    (createdBy (e, r) = some (s.nextQueryId + 1) ∧ s'.nextQueryId = s.nextQueryId + 1 ∧
        ∃ query, s'.queries = Function.update s.queries (s.nextQueryId + 1) (some query)) ∨
      createdBy (e, r) = none ∧ s'.nextQueryId = s.nextQueryId ∧ s'.queries = s.queries := by
  unfold Step at h
  cases e with
  | createQuery =>
    cases h
    exact .inr ⟨rfl, rfl, rfl⟩
  | rawCreateQuery checked =>
    refine .inr ⟨rfl, ?_⟩
    rcases checked with _ | _ <;>
    · cases h
      exact ⟨rfl, rfl⟩
  | createQueryDone result =>
    simp only [step] at h
    split at h
    · cases h
    · cases result with
      | error status =>
        cases h
        exact .inr ⟨rfl, rfl, rfl⟩
      | ok query =>
        have h := Option.some.inj h
        simp only [finishCreateQuery, registerQuery, getQueryInfo, Function.update_self, Prod.mk.injEq] at h
        obtain ⟨rfl, rfl⟩ := h
        exact .inl ⟨rfl, rfl, query, rfl⟩
  | queryGetInfo id =>
    cases h
    exact .inr ⟨rfl, rfl, rfl⟩
  | queryEstimateFees id ignoreChksig =>
    refine .inr ⟨rfl, ?_⟩
    simp only [step] at h
    split at h <;>
    · cases h
      exact ⟨rfl, rfl⟩
  | lastConfig id ignoreChksig result =>
    refine .inr ⟨rfl, ?_⟩
    simp only [step] at h
    split at h
    · cases h
      exact ⟨rfl, rfl⟩
    · cases h
  | querySend id | queryForget id =>
    refine .inr ⟨rfl, ?_⟩
    simp only [step] at h
    split at h <;>
    · cases h
      exact ⟨rfl, rfl⟩

/-- A request is accepted when its query is kept. -/
theorem accepted_iff {id : Int} (h : Step s (e, r) s') (hid : e.queryId = some id) :
    r ≠ .invalidQueryId ↔ (s.queries id).isSome := by
  unfold Step at h
  cases e with
  | createQuery | rawCreateQuery checked | createQueryDone result => cases hid
  | queryGetInfo id =>
    cases hid
    simp only [step, getQueryInfo, Option.some.injEq, Prod.mk.injEq] at h
    obtain ⟨rfl, -⟩ := h
    cases s.queries id <;> simp
  | queryEstimateFees id ignoreChksig | querySend id | queryForget id =>
    cases hid
    simp only [step] at h
    split at h <;>
    · next hquery =>
      cases h
      simp [hquery]
  | lastConfig id ignoreChksig result =>
    cases hid
    simp only [step] at h
    split at h
    · obtain ⟨rfl, -⟩ := Prod.mk.inj (Option.some.inj h)
      unfold queryEstimateFees
      cases s.queries id with
      | none => simp
      | some query =>
        refine iff_of_true ?_ rfl
        rcases result with _ | state
        · exact nofun
        · dsimp only
          split <;> exact nofun
    · cases h

theorem forgottenBy_eq_some {id : Int} (h : forgottenBy (e, r) = some id) : e = .queryForget id ∧ r = .ok := by
  unfold forgottenBy at h
  split at h
  · next heq =>
    obtain ⟨rfl, rfl⟩ := Prod.mk.inj heq
    cases h
    exact ⟨rfl, rfl⟩
  · cases h

/-- A creation gets a new number; nothing else changes the queries. -/
theorem Inv.step (hinv : Inv es s) (h : Step s (e, r) s') : Inv (es ++ [(e, r)]) s' := by
  have hforgotten : ∀ id ∈ forgotten (es ++ [(e, r)]), id ∈ created es := by
    intro id hid
    rw [forgotten, List.filterMap_append, List.mem_append] at hid
    rcases hid with hid | hid
    · exact hinv.forgotten_created id hid
    · have hby : forgottenBy (e, r) = some id := by simpa using hid
      obtain ⟨rfl, rfl⟩ := forgottenBy_eq_some hby
      rw [← hinv.kept, ← accepted_iff h rfl]
      exact nofun
  rcases step_cases h with ⟨hcreated, hnext, query, hqueries⟩ | ⟨hnone, hnext, hqueries⟩
  · have hnew : created (es ++ [(e, r)]) = created es ++ [s.nextQueryId + 1] := by
      simp [created, hcreated]
    constructor
    · intro id
      rw [hnew, hqueries, List.mem_append, List.mem_singleton, ← hinv.kept, Function.update_apply]
      split
      · next hid => simp [hid]
      · next hid => simp [hid]
    · intro id hid
      rw [hnew, List.mem_append, List.mem_singleton] at hid
      rw [hnext]
      rcases hid with hid | rfl
      · have := hinv.bounded id hid
        omega
      · exact le_refl _
    · rw [hnew]
      refine List.nodup_append.2 ⟨hinv.nodup, List.nodup_singleton _, ?_⟩
      intro a ha b hb hab
      rw [List.mem_singleton] at hb
      have := hinv.bounded a ha
      omega
    · intro id hid
      rw [hnew]
      exact List.mem_append_left _ (hforgotten id hid)
  · have hsame : created (es ++ [(e, r)]) = created es := by
      simp [created, hnone]
    constructor
    · intro id
      rw [hsame, hqueries, hinv.kept]
    · rw [hsame, hnext]
      exact hinv.bounded
    · rw [hsame]
      exact hinv.nodup
    · intro id hid
      rw [hsame]
      exact hforgotten id hid

theorem inv_of_run (h : Run Step {} es s) : Inv es s := by
  induction h with
  | nil => exact inv_init
  | snoc _ hstep ih => exact ih.step hstep

/-- Numbers are never used again, and a number is accepted exactly while its query is live, in the runs in which no
query is named again after it was forgotten: forgetting keeps the query. -/
theorem lawful_iff_of_run (h : Run Step {} es s) :
    (created es).Nodup ∧ (Lawful es ↔ ForgottenForGood es) := by
  refine ⟨(inv_of_run h).nodup, ?_⟩
  -- a request is accepted when its query was created
  have haccepted (before : List (Event × Reply)) (e : Event × Reply) (after : List (Event × Reply)) (id : Int)
      (hes : es = before ++ e :: after) (hid : e.1.queryId = some id) : e.2 ≠ .invalidQueryId ↔ id ∈ created before := by
    rw [hes] at h
    obtain ⟨t, v, hrun, hstep⟩ := h.at_event
    rw [accepted_iff hstep hid, (inv_of_run hrun).kept]
  constructor
  · intro hlawful before e after id hes hid hforgotten
    -- what was forgotten was created, and is accepted
    have hcreated : id ∈ created before := by
      rw [hes] at h
      obtain ⟨t, -, hrun, -⟩ := h.at_event
      exact (inv_of_run hrun).forgotten_created id hforgotten
    have hok := (haccepted before e after id hes hid).2 hcreated
    exact ((hlawful before e after id hes hid).1 hok).2 hforgotten
  · intro hgood before e after id hes hid
    rw [haccepted before e after id hes hid]
    exact (and_iff_left (hgood before e after id hes hid)).symm

end Run

end QueryRegistry

end

namespace QueryRegistry.Sample

/-- Nothing costs anything. -/
instance context : QueryContext where
  Account := Unit
  ConfigState := Unit
  Fees := Nat
  toBytes _ := []
  bodyHash _ := 0
  estimateFees _ _ _ := .ok 0

def query : RawQuery Unit := ⟨(), [], 60, .mk false [] [], none, .mk false [] []⟩
def info : QueryInfo := ⟨1, 60, 0, [], []⟩

/-- A query is created, sent and forgotten. -/
def sent : List (Event × Reply) :=
  [(.createQuery, .waiting), (.createQueryDone (.ok query), .info info), (.querySend 1, .waiting), (.queryForget 1, .ok)]

def afterSent : QueryRegistry := { nextQueryId := 1, queries := Function.update (fun _ => none) 1 (some query) }

theorem run_sent : Run Step {} sent afterSent := by
  have hcreate : Step {} (.createQuery, .waiting) { creating := 1 } := rfl
  have hdone : Step { creating := 1 } (.createQueryDone (.ok query), .info info) afterSent := rfl
  have hsend : Step afterSent (.querySend 1, .waiting) afterSent := rfl
  have hforget : Step afterSent (.queryForget 1, .ok) afterSent := rfl
  exact .snoc (.snoc (.snoc (.snoc .nil hcreate) hdone) hsend) hforget

theorem lawful_sent : (created sent).Nodup ∧ Lawful sent := by
  obtain ⟨hnodup, hiff⟩ := lawful_iff_of_run run_sent
  refine ⟨hnodup, hiff.2 ?_⟩
  intro before e after id hes _ hmem
  -- nothing comes after the only event that forgets
  have hnone : ∀ n < 4, forgotten (sent.take n) = [] := by decide
  have hlen : before.length < 4 := by
    have := congrArg List.length hes
    simp only [sent, List.length_append, List.length_cons, List.length_nil] at this
    omega
  have hbefore : before = sent.take before.length := by
    rw [hes, List.take_left]
  rw [hbefore, hnone _ hlen] at hmem
  cases hmem

/-- A query is asked for after it was forgotten, and still there. -/
theorem not_lawful_asked : ¬ ∀ (_ : QueryContext) (es : List (Event × Reply)) (s : QueryRegistry),
    Run Step {} es s → Lawful es := by
  intro hclaim
  have hask : Step afterSent (.queryGetInfo 1, .info info) afterSent := rfl
  have hlawful := hclaim context _ afterSent (run_sent.snoc hask)
  have hlive := (hlawful sent (.queryGetInfo 1, .info info) [] 1 rfl rfl).1 nofun
  exact hlive.2 (by decide)

end QueryRegistry.Sample

end TonWallet.Tonlib
