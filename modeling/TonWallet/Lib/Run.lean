/-
Runs of a labelled transition system: the finite sequences of events a component can go through,
and the induction rules every result about "all runs" or "every reachable state" is proven with.
A run is built at its end, so the induction hypothesis is about the state before the last event.
-/
import Mathlib.Logic.Relation
import Mathlib.Order.Basic
import Mathlib.Data.List.Induction

namespace Lib

variable {σ ε : Type*}

/-- `Run R s es t`: from `s` the events `es`, in this order, lead to `t`. -/
inductive Run (R : σ → ε → σ → Prop) (s : σ) : List ε → σ → Prop
  | nil : Run R s [] s
  | snoc {es : List ε} {t u : σ} {e : ε} : Run R s es t → R t e u → Run R s (es ++ [e]) u

namespace Run

variable {R S : σ → ε → σ → Prop} {s t u : σ} {es fs : List ε}

/-- The invariant rule: what holds at the start and is kept by every step holds at the end. -/
theorem inv {I : σ → Prop} (h : Run R s es t) (h0 : I s) (hs : ∀ a e b, I a → R a e b → I b) : I t := by
  induction h with
  | nil => exact h0
  | snoc _ hr ih => exact hs _ _ _ ih hr

/-- A run whose steps are also steps of `S` is a run of `S`. -/
theorem mono (h : Run R s es t) (hs : ∀ a e b, R a e b → S a e b) : Run S s es t := by
  induction h with
  | nil => exact .nil
  | snoc _ hr ih => exact .snoc ih (hs _ _ _ hr)

/-- A run whose events all meet a condition. -/
theorem when {ok : ε → Prop} (h : Run R s es t) (hok : ∀ e ∈ es, ok e) : Run (fun a e b => ok e ∧ R a e b) s es t := by
  induction h with
  | nil => exact .nil
  | snoc _ hr ih =>
    exact .snoc (ih fun e he => hok e (List.mem_append_left _ he)) ⟨hok _ (by simp), hr⟩

theorem append (h : Run R s es t) (h' : Run R t fs u) : Run R s (es ++ fs) u := by
  induction h' with
  | nil => simpa using h
  | snoc _ hr ih => rw [← List.append_assoc]; exact .snoc ih hr

theorem single {e : ε} (h : R s e t) : Run R s [e] t := .snoc .nil h

/-- The last event of a nonempty run and the state before it. -/
theorem snoc_inv {e : ε} (h : Run R s (es ++ [e]) u) : ∃ t, Run R s es t ∧ R t e u := by
  generalize hes : es ++ [e] = l at h
  cases h with
  | nil => simp at hes
  | snoc h hr =>
    obtain ⟨rfl, he⟩ := List.append_inj' hes rfl
    cases he
    exact ⟨_, h, hr⟩

/-- A run up to one of its events, and the step of that event. -/
theorem at_event {e : ε} (h : Run R s (es ++ e :: fs) u) : ∃ t v, Run R s es t ∧ R t e v := by
  induction fs using List.reverseRecOn generalizing u with
  | nil =>
    obtain ⟨t, ht, hr⟩ := h.snoc_inv
    exact ⟨t, u, ht, hr⟩
  | append_singleton fs f ih =>
    rw [← List.cons_append, ← List.append_assoc] at h
    obtain ⟨v, hv, -⟩ := h.snoc_inv
    exact ih hv

/-- Where a step is decided by its event, a run is decided by its events. -/
theorem unique (hdet : ∀ a e b c, R a e b → R a e c → b = c) (h : Run R s es t) (h' : Run R s es u) : t = u := by
  induction h generalizing u with
  | nil =>
    generalize hes : ([] : List ε) = l at h'
    cases h' with
    | nil => rfl
    | snoc _ _ => simp at hes
  | snoc _ hr ih =>
    obtain ⟨v, hv, hr'⟩ := snoc_inv h'
    rw [← ih hv] at hr'
    exact hdet _ _ _ _ hr hr'

end Run

/-! ## Deterministic components -/

/-- The steps of a component whose event decides its next state; `none`: the event cannot happen. -/
def Steps (step : σ → ε → Option σ) (s : σ) (e : ε) (t : σ) : Prop := step s e = some t

/-- The state after some events, if they can happen. -/
def exec (step : σ → ε → Option σ) (s : σ) (es : List ε) : Option σ := es.foldlM step s

/-- Executing events one after the other is a run. -/
theorem Run.of_exec {step : σ → ε → Option σ} {s t : σ} {es : List ε} (h : exec step s es = some t) :
    Run (Steps step) s es t := by
  induction es using List.reverseRecOn generalizing t with
  | nil => cases h; exact .nil
  | append_singleton es e ih =>
    rw [exec, List.foldlM_append] at h
    obtain ⟨u, hu, h⟩ := Option.bind_eq_some_iff.1 h
    exact .snoc (ih hu) (by simpa [Steps] using h)

/-- The steps that meet a condition on the state before and the event. -/
def Steps.When (step : σ → ε → Option σ) (ok : σ → ε → Prop) (s : σ) (e : ε) (t : σ) : Prop :=
  ok s e ∧ step s e = some t

/-- Executing events one after the other, each after a test of the condition, is a run of such steps. -/
theorem Run.of_exec_when {step : σ → ε → Option σ} {ok : σ → ε → Prop} [∀ s e, Decidable (ok s e)] {s t : σ}
    {es : List ε} (h : exec (fun s e => if ok s e then step s e else none) s es = some t) :
    Run (Steps.When step ok) s es t := by
  refine (Run.of_exec h).mono ?_
  intro a e b hs
  unfold Steps at hs
  simp only at hs
  split at hs
  · exact ⟨‹_›, hs⟩
  · cases hs

end Lib
