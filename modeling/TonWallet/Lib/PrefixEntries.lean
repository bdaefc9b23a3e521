/-
The entries of a prefix tree in the order of their keys, and what a filter makes of them that goes through them in
this order and may decide about all that are left at once.
-/
import TonWallet.Lib.Bits
import TonWallet.Lib.PrefixTree

namespace Lib

/-! ## Sorted entries -/

/-- One bit string comes before another: where they part, it goes to the left. -/
def Before (k l : List Bool) : Prop := ∃ p r s, k = p ++ false :: r ∧ l = p ++ true :: s

/-- Bit strings of one length come in the order of the numbers they are. -/
theorem Before.bitsToNat_lt {k l : List Bool} (h : Before k l) (hlen : k.length = l.length) :
    bitsToNat k < bitsToNat l := by
  obtain ⟨p, r, s, rfl, rfl⟩ := h
  have hrs : r.length = s.length := by simpa using hlen
  have hr := Lib.bitsToNat_lt r
  rw [bitsToNat_append_cons, bitsToNat_append_cons, ← hrs, Bool.toNat_false, Bool.toNat_true, Nat.mul_add, Nat.mul_add]
  omega

/-- The first that is found in an ordered list comes before all others that could be. -/
theorem eq_or_of_find? {β : Type*} {R : β → β → Prop} {p : β → Bool} {es : List β} {e : β} (hs : es.Pairwise R)
    (h : es.find? p = some e) : ∀ e' ∈ es, p e' = true → e' = e ∨ R e e' := by
  obtain ⟨-, as, bs, rfl, hbefore⟩ := List.find?_eq_some_iff_append.1 h
  intro e' he' hp
  rw [List.mem_append, List.mem_cons] at he'
  rcases he' with he' | rfl | he'
  · have hnot := hbefore e' he'
    rw [hp] at hnot
    cases hnot
  · exact .inl rfl
  · exact .inr (List.rel_of_pairwise_cons (List.pairwise_append.1 hs).2.1 he')

/-- The entries of a map, in the order of the keys. -/
structure EntriesOf {α : Type*} (m : List Bool → Option α) (es : List (List Bool × α)) : Prop where
  sorted : es.Pairwise fun a b => Before a.1 b.1
  mem_iff : ∀ k v, (k, v) ∈ es ↔ m k = some v

/-- Bit strings of one length that are numbers in this order. -/
theorem before_of_bitsToNat_lt {k l : List Bool} (hlen : k.length = l.length) (h : bitsToNat k < bitsToNat l) :
    Before k l := by
  rcases prefix_or_diverge k l with ⟨r, rfl⟩ | ⟨b, r, rfl⟩ | ⟨p, b, r, s, rfl, rfl⟩
  · have hr : r = [] := by simpa using hlen
    rw [hr, List.append_nil] at h
    exact absurd h (Nat.lt_irrefl _)
  · rw [List.length_append, List.length_cons] at hlen
    omega
  · cases b with
    | false => exact ⟨p, r, s, rfl, rfl⟩
    | true =>
      have hback : Before (p ++ (!true) :: s) (p ++ true :: r) := ⟨p, s, r, rfl, rfl⟩
      exact absurd (hback.bitsToNat_lt hlen.symm) (Nat.not_lt.2 h.le)

theorem Before.asymm {k l : List Bool} (h : Before k l) : ¬Before l k := by
  obtain ⟨p, r, s, rfl, rfl⟩ := h
  rintro ⟨p', r', s', hk, hl⟩
  rcases List.append_eq_append_iff.1 hk with ⟨x, hx, hs⟩ | ⟨x, hx, hs⟩
  · rw [hx, List.append_assoc] at hl
    have hcons := List.append_cancel_left hl
    cases x with
    | nil =>
      rw [List.nil_append] at hs
      cases hs
    | cons b x =>
      cases hs
      cases hcons
  · rw [hx, List.append_assoc] at hl
    have hcons := List.append_cancel_left hl
    cases x with
    | nil =>
      rw [List.nil_append] at hs
      cases hs
    | cons b x =>
      cases hs
      cases hcons

/-- A map has one list of entries. -/
theorem EntriesOf.unique {α : Type*} {m : List Bool → Option α} {es fs : List (List Bool × α)} (hes : EntriesOf m es)
    (hfs : EntriesOf m fs) : es = fs := by
  have hnodup {es : List (List Bool × α)} (h : es.Pairwise fun a b => Before a.1 b.1) : es.Nodup := by
    refine h.imp ?_
    rintro a _ hab rfl
    exact hab.asymm hab
  have hperm : es.Perm fs := by
    rw [List.perm_ext_iff_of_nodup (hnodup hes.sorted) (hnodup hfs.sorted)]
    rintro ⟨k, v⟩
    rw [hes.mem_iff, hfs.mem_iff]
  exact hperm.eq_of_pairwise (fun a b _ _ hab hba => absurd hba hab.asymm) hes.sorted hfs.sorted

namespace PrefixTree

variable {α : Type*}

/-- The entries of a tree whose keys continue `q`. -/
def entries (q : List Bool) : PrefixTree α → List (List Bool × α)
  | leaf l v => [(q ++ l, v)]
  | fork l a b => a.entries (q ++ l ++ [false]) ++ b.entries (q ++ l ++ [true])

def entries? (q : List Bool) (t : Option (PrefixTree α)) : List (List Bool × α) := t.elim [] (entries q)

theorem mem_entries {q : List Bool} {t : PrefixTree α} {k : List Bool} {v : α} :
    (k, v) ∈ t.entries q ↔ ∃ r, k = q ++ r ∧ t.get r = some v := by
  induction t generalizing q with
  | leaf l u =>
    simp only [entries, List.mem_singleton, Prod.mk.injEq, get]
    constructor
    · rintro ⟨rfl, rfl⟩
      exact ⟨l, rfl, if_pos rfl⟩
    · rintro ⟨r, rfl, hr⟩
      split at hr
      · next hrl =>
        cases hr
        exact ⟨by rw [hrl], rfl⟩
      · cases hr
  | fork l a b iha ihb =>
    rw [entries, List.mem_append, iha, ihb]
    constructor
    · rintro (⟨r, rfl, hr⟩ | ⟨r, rfl, hr⟩)
      · exact ⟨l ++ false :: r, by simp, by rw [get_fork_false, hr]⟩
      · exact ⟨l ++ true :: r, by simp, by rw [get_fork_true, hr]⟩
    · rintro ⟨r, rfl, hr⟩
      simp only [get] at hr
      split at hr
      · next r' hr' =>
        rw [dropPrefix?_eq_some] at hr'
        exact .inl ⟨r', by rw [hr']; simp, hr⟩
      · next r' hr' =>
        rw [dropPrefix?_eq_some] at hr'
        exact .inr ⟨r', by rw [hr']; simp, hr⟩
      · cases hr

theorem mem_entries? {t : Option (PrefixTree α)} {k : List Bool} {v : α} :
    (k, v) ∈ entries? [] t ↔ get? t k = some v := by
  cases t with
  | none => simp [entries?]
  | some t => simp [entries?, mem_entries]

theorem sorted_entries (q : List Bool) (t : PrefixTree α) : (t.entries q).Pairwise fun a b => Before a.1 b.1 := by
  induction t generalizing q with
  | leaf l v => exact List.pairwise_singleton _ _
  | fork l a b iha ihb =>
    rw [entries, List.pairwise_append]
    refine ⟨iha _, ihb _, ?_⟩
    rintro ⟨k, v⟩ hk ⟨k', v'⟩ hk'
    obtain ⟨r, rfl, -⟩ := mem_entries.1 hk
    obtain ⟨r', rfl, -⟩ := mem_entries.1 hk'
    exact ⟨q ++ l, r, r', by simp, by simp⟩

theorem entries_ne_nil (q : List Bool) (t : PrefixTree α) : t.entries q ≠ [] := by
  induction t generalizing q with
  | leaf l v => exact List.cons_ne_nil _ _
  | fork l a b iha _ =>
    intro h
    exact iha _ (List.append_eq_nil_iff.1 h).1

/-- A tree is sorted by its keys. -/
theorem entriesOf_entries? {t : Option (PrefixTree α)} {m : List Bool → Option α} (h : ∀ k, get? t k = m k) :
    EntriesOf m (entries? [] t) := by
  refine ⟨?_, fun k v => by rw [mem_entries?, h]⟩
  cases t with
  | none => exact List.Pairwise.nil
  | some t => exact sorted_entries [] t

@[simp] theorem entries_prepend (q p : List Bool) (t : PrefixTree α) : (t.prepend p).entries q = t.entries (q ++ p) := by
  cases t <;> simp [entries]

/-- The entries of rejoined branches are those of both. -/
theorem entries?_rejoin (q l : List Bool) (a b : Option (PrefixTree α)) :
    entries? q (rejoin l a b) = entries? (q ++ l ++ [false]) a ++ entries? (q ++ l ++ [true]) b := by
  cases a <;> cases b <;> simp [rejoin, entries?, entries]

end PrefixTree

/-! ## Filters -/

/-- What a filter says about an entry: keep it or drop it, and maybe all that come after it as well, or fail. -/
inductive Verdict (ε : Type*)
  | keep
  | drop
  | keepRest
  | dropRest
  | fail (e : ε)

variable {α ε : Type*}

/-- Filter the entries one after the other; `skip`: whether to drop all the rest, once this is decided. -/
def filterEntries (check : List Bool → α → Verdict ε) :
    Option Bool → List (List Bool × α) → Except ε (List (List Bool × α) × Option Bool)
  | skip, [] => .ok ([], skip)
  | some true, _ => .ok ([], some true)
  | some false, es => .ok (es, some false)
  | none, (k, v) :: es => match check k v with
    | .keep => (filterEntries check none es).map fun r => ((k, v) :: r.1, r.2)
    | .drop => filterEntries check none es
    | .keepRest => .ok ((k, v) :: es, some false)
    | .dropRest => .ok ([], some true)
    | .fail e => .error e

theorem filterEntries_some (check : List Bool → α → Verdict ε) (b : Bool) (es : List (List Bool × α)) :
    filterEntries check (some b) es = .ok (if b then [] else es, some b) := by
  cases es <;> cases b <;> rfl

/-- Entries in two parts are filtered one part after the other. -/
theorem filterEntries_append (check : List Bool → α → Verdict ε) (skip : Option Bool) (es fs : List (List Bool × α)) :
    filterEntries check skip (es ++ fs) = (filterEntries check skip es).bind fun r =>
      (filterEntries check r.2 fs).map fun s => (r.1 ++ s.1, s.2) := by
  cases skip with
  | some b =>
    rw [filterEntries_some, filterEntries_some]
    show _ = (filterEntries check (some b) fs).map _
    rw [filterEntries_some]
    cases b <;> rfl
  | none =>
    induction es with
    | nil =>
      show filterEntries check none fs = (filterEntries check none fs).map fun s => ([] ++ s.1, s.2)
      cases filterEntries check none fs <;> rfl
    | cons e es ih =>
      obtain ⟨k, v⟩ := e
      rw [List.cons_append, filterEntries, filterEntries]
      cases check k v with
      | keep =>
        dsimp only
        rw [ih]
        cases filterEntries check none es with
        | error e => rfl
        | ok r =>
          show ((filterEntries check r.2 fs).map _).map _ = (filterEntries check r.2 fs).map _
          cases filterEntries check r.2 fs <;> rfl
      | drop => exact ih
      | keepRest =>
        show _ = (filterEntries check (some false) fs).map _
        rw [filterEntries_some]
        rfl
      | dropRest =>
        show _ = (filterEntries check (some true) fs).map _
        rw [filterEntries_some]
        rfl
      | fail e => rfl

/-- A filter that decides about each entry alone. -/
theorem filterEntries_filter {check : List Bool → α → Verdict ε} {keep : List Bool → α → Bool}
    (h : ∀ k v, check k v = if keep k v then .keep else .drop) (es : List (List Bool × α)) :
    filterEntries check none es = .ok (es.filter fun e => keep e.1 e.2, none) := by
  induction es with
  | nil => rfl
  | cons e es ih =>
    obtain ⟨k, v⟩ := e
    rw [filterEntries, h, ih, List.filter_cons]
    cases keep k v <;> simp [Except.map]

/-- A filter keeps some of the entries. -/
theorem filterEntries_sublist {check : List Bool → α → Verdict ε} {skip : Option Bool} {es : List (List Bool × α)}
    {r : List (List Bool × α) × Option Bool} (h : filterEntries check skip es = .ok r) : r.1.Sublist es := by
  cases skip with
  | some b =>
    rw [filterEntries_some] at h
    cases h
    cases b
    · exact List.Sublist.refl es
    · exact List.nil_sublist es
  | none =>
    induction es generalizing r with
    | nil =>
      cases h
      exact List.Sublist.refl []
    | cons e es ih =>
      obtain ⟨k, v⟩ := e
      rw [filterEntries] at h
      cases hc : check k v with
      | keep =>
        rw [hc] at h
        cases hf : filterEntries check none es with
        | error e =>
          rw [hf] at h
          cases h
        | ok s =>
          rw [hf] at h
          cases h
          exact (ih hf).cons_cons _
      | drop =>
        rw [hc] at h
        exact (ih h).cons _
      | keepRest =>
        rw [hc] at h
        cases h
        exact List.Sublist.refl _
      | dropRest =>
        rw [hc] at h
        cases h
        exact List.nil_sublist _
      | fail e =>
        rw [hc] at h
        cases h

end Lib
