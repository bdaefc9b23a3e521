/-
`TonlibClient::guess_revisions`: the actor that asks for the account states of all candidate addresses of a key, keeps
those that may be wallets, and answers with the best one first, by a key that does not look at the address.
-/
import Mathlib.Data.List.Perm.Basic
import Mathlib.Data.Prod.Lex
import TonWallet.Lib.Run
import TonWallet.Lib.SortByKey
import TonWallet.Td.Status

namespace TonWallet.Tonlib

open Lib TonWallet.Td

/-! ## Data -/

/-- `AccountState::WalletType`; the order is used. -/
inductive WalletType
  | empty
  | unknown
  | giver
  | simpleWallet
  | wallet
  | walletV3
  | highloadWalletV1
  | highloadWalletV2
  | manualDns
  | paymentChannel
  | restrictedWallet
  deriving DecidableEq, Repr

/-- What the actor reads of an `AccountState`. -/
structure AccountState (Full : Type) where
  walletType : WalletType
  balance : Int
  walletRevision : Int
  /-- `to_fullAccountState`. -/
  full : Except Status Full

/-- A candidate. -/
structure Target (Address PublicKey : Type) where
  canBeEmpty : Bool
  canBeUninited : Bool
  address : Address
  publicKey : PublicKey

variable {Full Address PublicKey : Type}

namespace AccountState

/-- The tuple that account states are compared by. -/
abbrev Key := Bool ×ₗ Nat ×ₗ Int ×ₗ Int

def key (state : AccountState Full) : Key :=
  toLex (state.walletType ≠ .empty, toLex (state.walletType.ctorIdx, toLex (state.balance, state.walletRevision)))

/-- The account state as it is answered, if it can be. -/
def toFullAccountState (state : AccountState Full) : Option Full := state.full.toOption

end AccountState

/-- A candidate with the answer that its account state query will get. -/
abbrev Candidate (Full Address PublicKey : Type) := Target Address PublicKey × AccountState Full

/-- The fields of `GuessRevisions`, the queries under way, and what the promise was set to, the account states made
`accountRevisionList` entries. -/
structure GuessRevisions (Full Address PublicKey : Type) where
  left : Nat := 1
  res : List (AccountState Full) := []
  inFlight : List (Candidate Full Address PublicKey) := []
  answers : List (List Full) := []

namespace GuessRevisions

/-! ## The actor -/

/-- Whether an account state may be that of a wallet. -/
def retains (target : Target Address PublicKey) (state : AccountState Full) : Bool :=
  ¬ (state.balance < 0 ∧ ¬ target.canBeUninited) ∧ ¬ (state.walletType = .empty ∧ ¬ target.canBeEmpty)

variable (sort : List (AccountState Full) → List (AccountState Full))

/-- `on_account_state_finish`. -/
def onAccountStateFinish (g : GuessRevisions Full Address PublicKey) : GuessRevisions Full Address PublicKey :=
  let g := { g with left := g.left - 1 }
  if g.left = 0 then { g with answers := g.answers ++ [(sort g.res).filterMap AccountState.toFullAccountState] } else g

/-- `on_account_state` of a successful answer. -/
def onAccountState (target : Target Address PublicKey) (state : AccountState Full)
    (g : GuessRevisions Full Address PublicKey) : GuessRevisions Full Address PublicKey :=
  (if retains target state then { g with res := g.res ++ [state] } else g).onAccountStateFinish sort

/-- `start_up`. -/
def startUp (cs : List (Candidate Full Address PublicKey)) : GuessRevisions Full Address PublicKey :=
  { left := 1 + cs.length, inFlight := cs : GuessRevisions Full Address PublicKey }.onAccountStateFinish sort

/-- The answer to one of the queries under way arrives. -/
def step (g : GuessRevisions Full Address PublicKey) (i : Nat) : Option (GuessRevisions Full Address PublicKey) := do
  let (target, state) ← g.inFlight[i]?
  return { g with inFlight := g.inFlight.eraseIdx i }.onAccountState sort target state

/-- Whatever the order of the answers, the promise is set once, when all are there, and always to the same list. -/
def AnswersOnce (cs : List (Candidate Full Address PublicKey)) : Prop :=
  ∃ l, ∀ order g, Run (Steps (step sort)) (startUp sort cs) order g → g.answers = if g.inFlight = [] then [l] else []

/-- The account states that are kept. -/
def kept (cs : List (Candidate Full Address PublicKey)) : List (AccountState Full) :=
  (cs.filter fun c => retains c.1 c.2).map Prod.snd

/-! ## Runs -/

section Runs

variable {sort} {cs : List (Candidate Full Address PublicKey)} {g g' : GuessRevisions Full Address PublicKey}

/-- The answer for the account states that have arrived. -/
def answerOf (sort : List (AccountState Full) → List (AccountState Full)) (arrived : List (Candidate Full Address PublicKey)) :
    List Full :=
  (sort (kept arrived)).filterMap AccountState.toFullAccountState

/-- What holds while the candidates `arrived` have been answered. -/
structure Inv (sort : List (AccountState Full) → List (AccountState Full)) (cs arrived : List (Candidate Full Address PublicKey))
    (g : GuessRevisions Full Address PublicKey) : Prop where
  perm : (arrived ++ g.inFlight).Perm cs
  res_eq : g.res = kept arrived
  left_eq : g.left = g.inFlight.length
  answers_eq : g.answers = if g.inFlight = [] then [answerOf sort arrived] else []

/-- One answer less is missing; with the last one the promise is set. -/
theorem inv_onAccountStateFinish {arrived : List (Candidate Full Address PublicKey)}
    (hperm : (arrived ++ g.inFlight).Perm cs) (hres : g.res = kept arrived) (hleft : g.left = g.inFlight.length + 1)
    (hanswers : g.answers = []) : Inv sort cs arrived (g.onAccountStateFinish sort) := by
  unfold onAccountStateFinish
  rw [hleft, Nat.add_sub_cancel, hanswers, hres]
  dsimp only
  by_cases hnil : g.inFlight = []
  · rw [if_pos (by rw [hnil]; rfl)]
    constructor
    · exact hperm
    · rfl
    · rfl
    · rw [if_pos hnil]
      rfl
  · rw [if_neg fun hlen => hnil (List.length_eq_zero_iff.1 hlen)]
    constructor
    · exact hperm
    · rfl
    · rfl
    · rw [if_neg hnil]

theorem inv_startUp : Inv sort cs [] (startUp sort cs) :=
  inv_onAccountStateFinish (List.Perm.refl cs) rfl (Nat.add_comm 1 _) rfl

theorem kept_append (cs cs' : List (Candidate Full Address PublicKey)) : kept (cs ++ cs') = kept cs ++ kept cs' := by
  unfold kept
  rw [List.filter_append, List.map_append]

/-- An answer arrives. -/
theorem inv_onAccountState {arrived : List (Candidate Full Address PublicKey)} {i : Nat} {c : Candidate Full Address PublicKey}
    (hinv : Inv sort cs arrived g) (hc : g.inFlight[i]? = some c) :
    Inv sort cs (arrived ++ [c]) ({ g with inFlight := g.inFlight.eraseIdx i }.onAccountState sort c.1 c.2) := by
  obtain ⟨hi, rfl⟩ := List.getElem?_eq_some_iff.1 hc
  generalize hcandidate : g.inFlight[i] = c at *
  have hlen : g.left = (g.inFlight.eraseIdx i).length + 1 := by
    rw [List.length_eraseIdx, if_pos hi, hinv.left_eq]
    omega
  have hanswers : g.answers = [] := by
    rw [hinv.answers_eq, if_neg]
    intro hnil
    rw [hnil] at hi
    exact absurd hi (Nat.not_lt_zero i)
  have hperm : (arrived ++ [c] ++ g.inFlight.eraseIdx i).Perm cs := by
    rw [List.append_assoc, List.singleton_append, ← hcandidate]
    exact (List.Perm.append_left arrived (List.getElem_cons_eraseIdx_perm hi)).trans hinv.perm
  unfold onAccountState
  by_cases hretains : retains c.1 c.2
  · rw [if_pos hretains]
    refine inv_onAccountStateFinish hperm ?_ hlen hanswers
    rw [kept_append, ← hinv.res_eq]
    simp [kept, hretains]
  · rw [if_neg hretains]
    refine inv_onAccountStateFinish hperm ?_ hlen hanswers
    rw [kept_append, ← hinv.res_eq]
    simp [kept, hretains]

theorem inFlight_onAccountState (target : Target Address PublicKey) (state : AccountState Full) :
    (g.onAccountState sort target state).inFlight = g.inFlight := by
  unfold onAccountState onAccountStateFinish
  dsimp only
  split <;> split <;> rfl

theorem step_eq_some {i : Nat} (h : step sort g i = some g') :
    ∃ c, g.inFlight[i]? = some c ∧ g' = { g with inFlight := g.inFlight.eraseIdx i }.onAccountState sort c.1 c.2 := by
  unfold step at h
  obtain ⟨c, hc, h⟩ := Option.bind_eq_some_iff.1 h
  exact ⟨c, hc, (Option.some.inj h).symm⟩

theorem inv_of_run {order : List Nat} (h : Run (Steps (step sort)) (startUp sort cs) order g) :
    ∃ arrived, Inv sort cs arrived g := by
  induction h with
  | nil => exact ⟨[], inv_startUp⟩
  | snoc _ hstep ih =>
    obtain ⟨arrived, hinv⟩ := ih
    obtain ⟨c, hc, rfl⟩ := step_eq_some hstep
    exact ⟨_, inv_onAccountState hinv hc⟩

/-- The answers can arrive in any order. -/
theorem exists_run {order : List (Candidate Full Address PublicKey)} {arrived : List (Candidate Full Address PublicKey)}
    (hinv : Inv sort cs arrived g) (hperm : order.Perm g.inFlight) :
    ∃ is g', Run (Steps (step sort)) g is g' ∧ g'.inFlight = [] ∧ Inv sort cs (arrived ++ order) g' := by
  induction order generalizing arrived g with
  | nil =>
    rw [List.append_nil]
    exact ⟨[], g, .nil, List.Perm.nil_eq hperm |>.symm, hinv⟩
  | cons c order ih =>
    obtain ⟨i, hi, hget⟩ := List.getElem_of_mem (hperm.mem_iff.1 (List.mem_cons_self (a := c)))
    have hc : g.inFlight[i]? = some c := by rw [List.getElem?_eq_getElem hi, hget]
    have hinv' := inv_onAccountState hinv hc
    have hrest : order.Perm (g.inFlight.eraseIdx i) := by
      have hall := hperm.trans (List.getElem_cons_eraseIdx_perm hi).symm
      rw [hget] at hall
      exact hall.cons_inv
    obtain ⟨is, g', hrun, hnil, hinv''⟩ := ih hinv' (by rwa [inFlight_onAccountState])
    rw [List.append_assoc] at hinv''
    refine ⟨[i] ++ is, g', Run.append (Run.single ?_) hrun, hnil, hinv''⟩
    unfold Steps step
    rw [hc]
    rfl

theorem kept_perm {cs' : List (Candidate Full Address PublicKey)} (h : cs.Perm cs') : (kept cs).Perm (kept cs') :=
  (h.filter _).map _

theorem inFlight_startUp : (startUp sort cs).inFlight = cs := by
  unfold startUp onAccountStateFinish
  dsimp only
  split <;> rfl

/-- Two different members can be put first. -/
theorem exists_perm_two {α : Type} {l : List α} {a b : α} (ha : a ∈ l) (hb : b ∈ l) (hne : a ≠ b) :
    ∃ rest, l.Perm (a :: b :: rest) := by
  obtain ⟨s, t, rfl⟩ := List.append_of_mem ha
  have hb : b ∈ s ++ t := by
    rw [List.mem_append, List.mem_cons] at hb
    rw [List.mem_append]
    rcases hb with hb | rfl | hb
    · exact .inl hb
    · exact absurd rfl hne
    · exact .inr hb
  obtain ⟨s', t', hst⟩ := List.append_of_mem hb
  refine ⟨s' ++ t', List.perm_middle.trans (List.Perm.cons a ?_)⟩
  rw [hst]
  exact List.perm_middle

/-- Of two kept account states with one key, at most one can be answered, or both answers are the same. -/
def KeysSeparate (cs : List (Candidate Full Address PublicKey)) : Prop :=
  KeyTells AccountState.key AccountState.toFullAccountState (kept cs)

/-- Where the keys separate the candidates, every sort answers the same. -/
theorem answersOnce_of_keysSeparate (hsort : SortsBy AccountState.key sort) (hkeys : KeysSeparate cs) : AnswersOnce sort cs := by
  refine ⟨answerOf sort cs, ?_⟩
  intro order g hrun
  obtain ⟨arrived, hinv⟩ := inv_of_run hrun
  rw [hinv.answers_eq]
  split
  · next hnil =>
    have hperm : arrived.Perm cs := by
      have := hinv.perm
      rwa [hnil, List.append_nil] at this
    have hsorted : (sort (kept arrived)).Perm (sort (kept cs)) :=
      ((hsort.perm _).trans (kept_perm hperm)).trans (hsort.perm _).symm
    have htells : KeyTells AccountState.key AccountState.toFullAccountState (sort (kept arrived)) := by
      intro a ha b hb
      have hmem (a : AccountState Full) : a ∈ sort (kept arrived) ↔ a ∈ kept cs := (hsorted.trans (hsort.perm _)).mem_iff
      exact hkeys a ((hmem a).1 ha) b ((hmem b).1 hb)
    unfold answerOf
    rw [filterMap_eq_of_sorted htells hsorted (hsort.sorted _) (hsort.sorted _)]
  · rfl

/-- In whatever order the answers arrive, and whatever `std::sort` does with account states of equal keys, the promise is
set once and to the same list, exactly for the candidates that the keys separate. -/
theorem answersOnce_iff : (∀ sort, SortsBy AccountState.key sort → AnswersOnce sort cs) ↔ KeysSeparate cs := by
  constructor
  · intro hanswers a ha b hb hkey x y hx hy
    by_contra hxy
    obtain ⟨l, hl⟩ := hanswers _ insertionSortBy_sortsBy
    obtain ⟨ca, hca, rfl⟩ := List.mem_map.1 ha
    obtain ⟨cb, hcb, rfl⟩ := List.mem_map.1 hb
    rw [List.mem_filter] at hca hcb
    have hne : ca ≠ cb := by
      rintro rfl
      rw [hx] at hy
      exact hxy (Option.some.inj hy)
    obtain ⟨rest, hperm⟩ := exists_perm_two hca.1 hcb.1 hne
    -- the one of them arrives first, or the other one
    have hfirst {order : List (Candidate Full Address PublicKey)} (horder : order.Perm cs) :
        answerOf (insertionSortBy AccountState.key) order = l := by
      have hstart : Inv (insertionSortBy AccountState.key) cs [] (startUp (insertionSortBy AccountState.key) cs) := inv_startUp
      have hflight : order.Perm (startUp (insertionSortBy AccountState.key) cs).inFlight := by rwa [inFlight_startUp]
      obtain ⟨is, g, hrun, hnil, hinv⟩ := exists_run hstart hflight
      have hanswers := hinv.answers_eq
      rw [hl is g hrun, if_pos hnil, if_pos hnil] at hanswers
      exact (List.singleton_inj.1 hanswers).symm
    have hkept (c c' : Candidate Full Address PublicKey) (hc : retains c.1 c.2) (hc' : retains c'.1 c'.2) :
        kept (c :: c' :: rest) = c.2 :: c'.2 :: kept rest := by
      simp [kept, hc, hc']
    have hab := hfirst hperm.symm
    have hba := hfirst ((List.Perm.swap ca cb rest).trans hperm.symm)
    rw [answerOf, hkept ca cb hca.2 hcb.2] at hab
    rw [answerOf, hkept cb ca hcb.2 hca.2] at hba
    exact filterMap_insertionSortBy_ne hkey hx hy hxy (kept rest) (hab.trans hba.symm)
  · intro hkeys sort hsort
    exact answersOnce_of_keysSeparate hsort hkeys

end Runs

namespace Sample

/-- Two wallets of one key, type, revision and balance, in the masterchain and in the basechain. -/
def wallet (address : String) : Candidate String String Unit :=
  (⟨true, false, address, ()⟩, ⟨.walletV3, 100, 2, .ok address⟩)

def candidates : List (Candidate String String Unit) := [wallet "-1:a", wallet "0:a"]

abbrev stdSort : List (AccountState String) → List (AccountState String) := insertionSortBy AccountState.key

theorem not_answersOnce : ¬ ∀ cs : List (Candidate String String Unit), ∀ sort, SortsBy AccountState.key sort → AnswersOnce sort cs := by
  intro hclaim
  obtain ⟨l, hl⟩ := hclaim candidates stdSort insertionSortBy_sortsBy
  have hfirst : exec (step stdSort) (startUp stdSort candidates) [0, 0] = 
      some ⟨0, [(wallet "-1:a").2, (wallet "0:a").2], [], [["-1:a", "0:a"]]⟩ := rfl
  have hsecond : exec (step stdSort) (startUp stdSort candidates) [1, 0] = 
      some ⟨0, [(wallet "0:a").2, (wallet "-1:a").2], [], [["0:a", "-1:a"]]⟩ := rfl
  have h1 := hl _ _ (Run.of_exec hfirst)
  have h2 := hl _ _ (Run.of_exec hsecond)
  have heq := List.singleton_inj.1 (h1.trans h2.symm)
  exact absurd heq (by decide)

end Sample

end GuessRevisions

end TonWallet.Tonlib
