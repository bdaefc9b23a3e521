/-
Depth-first visits that remember keys: a node whose key was met before is not gone into again. If the nodes that can
be reached have different keys, a visit that starts with no keys meets all of them.
-/
import Mathlib.Data.List.Basic

namespace Lib.Visits

variable {T κ : Type*} (next : T → List T) (key : T → κ)

/-- The nodes that can be reached from one. -/
inductive Reach (root : T) : T → Prop
  | root : Reach root root
  | step {t u : T} : Reach root t → u ∈ next t → Reach root u

theorem Reach.head {s t u : T} (hst : t ∈ next s) (htu : Reach next t u) : Reach next s u := by
  induction htu with
  | root => exact .step .root hst
  | step _ hu ih => exact .step ih hu

/-- A visit of some nodes one after the other: the keys met before and after, and the nodes that were new. -/
inductive Visit : List T → List κ → List κ → List T → Prop
  | nil {V : List κ} : Visit [] V V []
  | old {t : T} {ts : List T} {V V' : List κ} {L : List T} : key t ∈ V → Visit ts V V' L → Visit (t :: ts) V V' L
  | new {t : T} {ts : List T} {V V₁ V₂ : List κ} {L₁ L₂ : List T} : key t ∉ V → Visit (next t) (key t :: V) V₁ L₁ →
    Visit ts V₁ V₂ L₂ → Visit (t :: ts) V V₂ (t :: L₁ ++ L₂)

namespace Visit

variable {next key} {ts : List T} {V V' : List κ} {L : List T}

/-- A node from which the visit goes no further. -/
theorem leaf {t : T} (hk : key t ∉ V) (hnext : next t = []) : Visit next key [t] V (key t :: V) [t] := by
  have hbelow : Visit next key (next t) (key t :: V) (key t :: V) [] := by
    rw [hnext]
    exact .nil
  exact .new hk hbelow .nil

/-- Visits one after the other. -/
theorem append {us : List T} {V'' : List κ} {L' : List T} (h : Visit next key ts V V' L) (h' : Visit next key us V' V'' L') :
    Visit next key (ts ++ us) V V'' (L ++ L') := by
  induction h with
  | nil => exact h'
  | old hk _ ih => exact .old hk (ih h')
  | new hk h₁ _ _ ih₂ =>
    simpa only [List.cons_append, List.append_assoc] using Visit.new hk h₁ (ih₂ h')

/-- Keys are only added: those of the new nodes. -/
theorem keys (h : Visit next key ts V V' L) : (∀ k ∈ V, k ∈ V') ∧ ∀ k ∈ V', k ∈ V ∨ ∃ t ∈ L, key t = k := by
  induction h with
  | nil => exact ⟨fun _ h => h, fun _ h => .inl h⟩
  | old _ _ ih => exact ih
  | @new t ts V V₁ V₂ L₁ L₂ _ _ _ ih₁ ih₂ =>
    refine ⟨fun k hk => ih₂.1 k (ih₁.1 k (List.mem_cons_of_mem _ hk)), fun k hk => ?_⟩
    rcases ih₂.2 k hk with hk | ⟨u, hu, hk⟩
    · rcases ih₁.2 k hk with hk | ⟨u, hu, hk⟩
      · rcases List.mem_cons.1 hk with rfl | hk
        · exact .inr ⟨t, by simp, rfl⟩
        · exact .inl hk
      · exact .inr ⟨u, by simp [hu], hk⟩
    · exact .inr ⟨u, by simp [hu], hk⟩

/-- In the end every node that was asked for has its key among those met. -/
theorem key_mem (h : Visit next key ts V V' L) : ∀ t ∈ ts, key t ∈ V' := by
  induction h with
  | nil => exact fun t ht => nomatch ht
  | old hk h ih => exact List.forall_mem_cons.2 ⟨h.keys.1 _ hk, ih⟩
  | new _ h₁ h₂ _ ih₂ => exact List.forall_mem_cons.2 ⟨h₂.keys.1 _ (h₁.keys.1 _ List.mem_cons_self), ih₂⟩

/-- So has every successor of a new node. -/
theorem closed (h : Visit next key ts V V' L) : ∀ t ∈ L, ∀ u ∈ next t, key u ∈ V' := by
  induction h with
  | nil => exact fun t ht => nomatch ht
  | old _ _ ih => exact ih
  | @new t ts V V₁ V₂ L₁ L₂ _ h₁ h₂ ih₁ ih₂ =>
    intro s hs u hu
    rcases List.mem_append.1 hs with hs | hs
    · rcases List.mem_cons.1 hs with rfl | hs
      · exact h₂.keys.1 _ (h₁.key_mem u hu)
      · exact h₂.keys.1 _ (ih₁ s hs u hu)
    · exact ih₂ s hs u hu

/-- New nodes can be reached. -/
theorem reach (h : Visit next key ts V V' L) : ∀ u ∈ L, ∃ t ∈ ts, Reach next t u := by
  induction h with
  | nil => exact fun t ht => nomatch ht
  | old _ _ ih =>
    intro u hu
    obtain ⟨t, ht, htu⟩ := ih u hu
    exact ⟨t, List.mem_cons_of_mem _ ht, htu⟩
  | @new t ts V V₁ V₂ L₁ L₂ _ _ _ ih₁ ih₂ =>
    intro u hu
    rcases List.mem_append.1 hu with hu | hu
    · rcases List.mem_cons.1 hu with rfl | hu
      · exact ⟨u, List.mem_cons_self, .root⟩
      · obtain ⟨s, hs, hsu⟩ := ih₁ u hu
        exact ⟨t, List.mem_cons_self, hsu.head next hs⟩
    · obtain ⟨s, hs, hsu⟩ := ih₂ u hu
      exact ⟨s, List.mem_cons_of_mem _ hs, hsu⟩

/-- A visit from no keys meets every node that can be reached, if their keys tell them apart. -/
theorem mem_of_reach {root : T} (h : Visit next key [root] [] V' L)
    (hinj : ∀ t u, Reach next root t → Reach next root u → key t = key u → t = u) {t : T} (ht : Reach next root t) : t ∈ L := by
  have hback : ∀ u, Reach next root u → key u ∈ V' → u ∈ L := by
    intro u hu hk
    rcases h.keys.2 _ hk with hk | ⟨s, hs, hsu⟩
    · cases hk
    · obtain ⟨r, hr, hrs⟩ := h.reach s hs
      obtain rfl := List.mem_singleton.1 hr
      exact hinj s u hrs hu hsu ▸ hs
  induction ht with
  | root => exact hback root .root (h.key_mem root List.mem_cons_self)
  | @step s u hs hu ih => exact hback u (.step hs hu) (h.closed s ih u hu)

end Visit

end Lib.Visits
