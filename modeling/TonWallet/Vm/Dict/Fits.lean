/-
When a tree can be stored: every value fits in a leaf whose label is the whole key. No shorter label takes more
bits, and a fork above it takes less, so the value then fits at every place in every tree.
-/
import TonWallet.Vm.Dict.Tree

namespace TonWallet.Vm

open Lib TonWallet.Td CellBuilder

variable [Digest]

namespace Dict

/-! ## Labels -/

omit [Digest] in
theorem lenBits_pos {maxLen : Nat} (h : 0 < maxLen) : 0 < lenBits maxLen := by
  unfold lenBits
  rw [if_neg (by omega)]
  omega

omit [Digest] in
theorem lenBits_mono {m n : Nat} (h : m ≤ n) : lenBits m ≤ lenBits n := by
  unfold lenBits
  split
  · omega
  · rw [if_neg (by omega)]
    refine Nat.succ_le_succ ((Nat.le_log2 (by omega)).2 ?_)
    exact (Nat.log2_self_le (by omega)).trans h

omit [Digest] in
/-- The shortest of the ways a label can be stored. -/
theorem length_labelBits {label : List Bool} {maxLen : Nat} (hlen : label.length ≤ maxLen) :
    (labelBits label maxLen).length = min (2 * label.length + 2)
      (if label = List.replicate label.length (label.headD false) then min (lenBits maxLen + label.length + 2) (lenBits maxLen + 3)
      else lenBits maxLen + label.length + 2) := by
  have hpos : label.length = 0 ∨ 0 < lenBits maxLen := by
    rcases Nat.eq_zero_or_pos label.length with h | h
    · exact .inl h
    · exact .inr (lenBits_pos (by omega))
  unfold labelBits
  dsimp only
  by_cases hsame : label = List.replicate label.length (label.headD false)
  · rw [if_pos hsame]
    by_cases h : 1 < label.length ∧ lenBits maxLen < 2 * label.length - 1
    · rw [if_pos ⟨hsame, h⟩]
      simp only [List.length_append, List.length_cons, List.length_nil, length_natToBits]
      omega
    · rw [if_neg fun hs => h hs.2]
      split
      · simp only [List.length_append, List.length_cons, List.length_nil, length_natToBits]
        omega
      · simp only [List.length_append, List.length_cons, List.length_nil, List.length_replicate]
        omega
  · rw [if_neg hsame, if_neg fun hs => hsame hs.1]
    split
    · simp only [List.length_append, List.length_cons, List.length_nil, length_natToBits]
      omega
    · simp only [List.length_append, List.length_cons, List.length_nil, List.length_replicate]
      omega

omit [Digest] in
/-- A part of a label takes no more bits than the label. -/
theorem length_labelBits_le {label key : List Bool} {m n : Nat} (h : label <:+: key) (hlabel : label.length ≤ m)
    (hkey : key.length ≤ n) (hm : m ≤ n) : (labelBits label m).length ≤ (labelBits key n).length := by
  have hbits := lenBits_mono hm
  have hlen := h.length_le
  have hsame : key = List.replicate key.length (key.headD false) →
      label = List.replicate label.length (label.headD false) := by
    intro hk
    have hmem : ∀ b ∈ label, b = key.headD false := fun b hb => List.eq_of_mem_replicate (hk ▸ h.subset hb)
    have hrep := List.eq_replicate_of_mem hmem
    cases label with
    | nil => rfl
    | cons b label =>
      rw [List.headD_cons]
      rwa [← hmem b (by simp)] at hrep
  rw [length_labelBits hlabel, length_labelBits hkey]
  by_cases hk : key = List.replicate key.length (key.headD false)
  · rw [if_pos hk, if_pos (hsame hk)]
    omega
  · rw [if_neg hk]
    split <;> omega

/-! ## Trees -/

/-- A value fits in a leaf whose label is its whole key, with room for as many forks above it as the key has bits. -/
def ValueFits (n : Nat) (key : List Bool) (v : Slice) : Prop := ∃ c, node key n v = some c ∧ c.Within (maxDepth - n)

/-- A value without references fits if its bits do. -/
theorem valueFits_of_bits {n : Nat} {key : List Bool} {bits : List Bool}
    (hbits : (labelBits key n).length + bits.length ≤ maxBits) : ValueFits n key ⟨bits, []⟩ := by
  have hwithin : ∀ b, (Cell.mk false (labelBits key n ++ bits) []).Within b := by
    intro b
    refine ⟨rfl, (by decide : 0 < 8), ?_⟩
    have hdepths : (Cell.mk false (labelBits key n ++ bits) []).info.depths = [0] := rfl
    rw [hdepths]
    intro d hd
    rw [List.mem_singleton.1 hd]
    exact Nat.zero_le b
  exact ⟨_, cellOf_eq (s := ⟨labelBits key n ++ bits, []⟩) (by rw [List.length_append]; exact hbits) (Nat.zero_le _)
    (hwithin _), hwithin _⟩

/-- A tree of values whose leaves can be made is stored, and is as much deeper as the keys have bits. -/
theorem store_within {n m b : Nat} {t : PrefixTree Slice} {q : List Bool} (hn : b + n ≤ maxDepth) (ht : t.Keyed m)
    (hq : q.length + m = n) (h : ∀ k v, t.get k = some v → ∃ c, node (q ++ k) n v = some c ∧ c.Within b) :
    ∃ c, store .plain m t = some c ∧ c.Within (b + m) := by
  induction t generalizing m q with
  | leaf l v =>
    obtain rfl : l.length = m := ht
    obtain ⟨c, hc, hwithin⟩ := h l v (PrefixTree.get_leaf_self l v)
    obtain ⟨rfl, hbits, hrefs, -⟩ := cellOf_eq_some hc
    have hshort := length_labelBits_le (List.suffix_append q l).isInfix (le_refl l.length)
      (by rw [List.length_append]; omega) (show l.length ≤ n by omega)
    rw [List.length_append] at hbits
    have hcell := cellOf_eq (s := ⟨labelBits l l.length ++ v.bits, v.refs⟩) (by rw [List.length_append]; omega) hrefs
      ((hwithin.relabel _).mono (by omega))
    exact ⟨_, hcell, (hwithin.relabel _).mono (Nat.le_add_right _ _)⟩
  | fork l x y ihx ihy =>
    obtain ⟨k, hm, hx, hy⟩ := ht
    obtain ⟨cx, hcx, hwx⟩ := ihx (q := q ++ l ++ [false]) hx (by simp; omega) fun r v hr => by
      have := h (l ++ false :: r) v (by rw [PrefixTree.get_fork_false]; exact hr)
      simpa using this
    obtain ⟨cy, hcy, hwy⟩ := ihy (q := q ++ l ++ [true]) hy (by simp; omega) fun r v hr => by
      have := h (l ++ true :: r) v (by rw [PrefixTree.get_fork_true]; exact hr)
      simpa using this
    have hlen : m - l.length - 1 = k := by omega
    -- the label of the fork is part of a key
    obtain ⟨r, v, hr⟩ := hx.exists_get
    have hrlen : r.length = k := by
      by_contra hne
      rw [hx.get_eq_none hne] at hr
      cases hr
    obtain ⟨c, hc, -⟩ := h (l ++ false :: r) v (by rw [PrefixTree.get_fork_false]; exact hr)
    obtain ⟨-, hbits, -⟩ := cellOf_eq_some hc
    have hshort : (labelBits l m).length ≤ (labelBits (q ++ (l ++ false :: r)) n).length :=
      length_labelBits_le ⟨q, false :: r, by simp⟩ (by omega) (by simp; omega) (by omega)
    rw [List.length_append] at hbits
    have hwithin := hwx.fork hwy (labelBits l m ++ [])
    have hcell := cellOf_eq (s := ⟨labelBits l m ++ [], [cx, cy]⟩) (by rw [List.length_append]; simp; omega)
      (show 2 ≤ 4 by decide) (hwithin.mono (by omega))
    refine ⟨_, ?_, hwithin.mono (by omega)⟩
    rw [store_fork, hlen, hcx, hcy]
    exact hcell

/-- A tree of values that fit is stored. -/
theorem store_of_fits {n m : Nat} {t : PrefixTree Slice} {q : List Bool} (hn : n ≤ maxDepth) (ht : t.Keyed m)
    (hq : q.length + m = n) (h : ∀ k v, t.get k = some v → ValueFits n (q ++ k) v) :
    ∃ c, store .plain m t = some c ∧ c.Within (maxDepth - n + m) :=
  store_within (by omega) ht hq h

theorem store?_of_fits {n : Nat} {t : Option (PrefixTree Slice)} (hn : n ≤ maxDepth) (ht : PrefixTree.Keyed? n t)
    (h : ∀ k v, PrefixTree.get? t k = some v → ValueFits n k v) : ∃ root, store? .plain n t = some root := by
  cases t with
  | none => exact ⟨none, rfl⟩
  | some t =>
    obtain ⟨c, hc, -⟩ := store_of_fits (q := []) hn (ht t rfl) (Nat.zero_add n) h
    exact ⟨some c, by rw [store?, hc]; rfl⟩

end Dict

end TonWallet.Vm
