/-
Which cells are dictionaries: those whose labels are parsed all the way down, each written in any of the ways a label
can be written. The cells that the dictionary code makes have every label written in the shortest way (`canon`).
-/
import TonWallet.Vm.Dict.Fits
import TonWallet.Vm.Dict.Lookup

namespace TonWallet.Vm.Dict

open Lib TonWallet.Td CellBuilder

variable [Digest]

/-- A cell is parsed as a tree whose keys have length `n`; with `canon`, its labels are written in the shortest way. -/
inductive Parses (canon : Prop) : Nat → PrefixTree Slice → Cell → Prop
  | leaf {n : Nat} {c : Cell} {label : LabelParser} {l : List Bool} {v : Slice}
      (hbits : c.data.length ≤ maxBits) (hlabel : LabelParser.ofCell (some c) n .chkAll = .ok label)
      (hreads : label.Reads l v) (hn : l.length = n) (hcanon : canon → node l n v = some c) : Parses canon n (.leaf l v) c
  | fork {n m : Nat} {c ca cb : Cell} {label : LabelParser} {l : List Bool} {a b : PrefixTree Slice}
      (hbits : c.data.length ≤ maxBits) (hlabel : LabelParser.ofCell (some c) n .chkAll = .ok label)
      (hreads : label.Reads l ⟨[], [ca, cb]⟩) (hn : l.length + 1 + m = n) (ha : Parses canon m a ca) (hb : Parses canon m b cb)
      (hcanon : canon → node l n ⟨[], [ca, cb]⟩ = some c) : Parses canon n (.fork l a b) c

/-- What is behind the label of an edge, which leads to a tree that has `m` bits of the keys below the label. -/
def Behind (canon : Prop) (m : Nat) (p : Slice) : PrefixTree Slice → Prop
  | .leaf _ v => m = 0 ∧ p = v
  | .fork _ a b => ∃ k ca cb, m = k + 1 ∧ p = ⟨[], [ca, cb]⟩ ∧ Parses canon k a ca ∧ Parses canon k b cb

/-- A root is parsed as a tree that may be empty. -/
def Parses? (canon : Prop) (n : Nat) : Option (PrefixTree Slice) → Option Cell → Prop
  | none, root => root = none
  | some t, root => ∃ c, root = some c ∧ Parses canon n t c

variable {canon : Prop} {n m : Nat} {t a b : PrefixTree Slice} {c ca cb : Cell} {p : Slice}

@[simp] theorem behind_withLabel (l : List Bool) : Behind canon m p (t.withLabel l) = Behind canon m p t := by
  cases t <;> rfl

/-! ## Parsing -/

theorem Parses.keyed (h : Parses canon n t c) : t.Keyed n := by
  induction h with
  | leaf _ _ _ hn _ => exact hn
  | fork _ _ _ hn _ _ _ iha ihb => exact ⟨_, hn, iha, ihb⟩

/-- The label of a parsed edge, and what is behind it. -/
theorem Parses.ofCell (h : Parses canon n t c) :
    ∃ label p, LabelParser.ofCell (some c) n .chkAll = .ok label ∧ label.Reads t.label p ∧
      Behind canon (n - t.label.length) p t := by
  cases h with
  | leaf _ hlabel hreads hn _ => exact ⟨_, _, hlabel, hreads, by simp [PrefixTree.label, hn], rfl⟩
  | fork _ hlabel hreads hn ha hb _ =>
    refine ⟨_, _, hlabel, hreads, _, _, _, ?_, rfl, ha, hb⟩
    rw [PrefixTree.label]
    omega

/-- Search in a parsed tree. -/
theorem dictLookup_parses {key : List Bool} (h : Parses canon n t c) (hkey : key.length = n) :
    dictLookup .chkAll (some c) key = .ok (t.get key) := by
  induction h.keyed.locate hkey generalizing n c with
  | @diverge t p r s b hl =>
    obtain ⟨label, payload, hlabel, hreads, -⟩ := h.ofCell
    have hpfx : label.isPrefixOf (p ++ (!b) :: s) = false := by
      rw [LabelParser.isPrefixOf, hreads.bits_eq, hl, ← Bool.not_eq_true, List.isPrefixOf_iff_prefix]
      rintro ⟨q, hq⟩
      rw [List.append_assoc] at hq
      have hcons := List.append_cancel_left hq
      cases b <;> cases hcons
    rw [dictLookup_part (hkey ▸ hlabel) hpfx, PrefixTree.get_diverge hl]
  | leaf k u =>
    obtain ⟨label, payload, hlabel, hreads, -, rfl⟩ := h.ofCell
    obtain ⟨-, hdrop, -⟩ := hreads.descend []
    have hpfx := hreads.isPrefixOf_append []
    rw [PrefixTree.label, List.append_nil] at hdrop hpfx
    rw [dictLookup_leaf (hkey ▸ hlabel) hpfx hdrop, hreads.payload_eq, PrefixTree.get_leaf_self]
  | @left l r a b _ ih =>
    obtain ⟨label, payload, hlabel, hreads, k, ca, cb, hk, rfl, ha, hb⟩ := h.ofCell
    obtain ⟨-, hdrop, -⟩ := hreads.descend (false :: r)
    have hpfx := hreads.isPrefixOf_append (false :: r)
    have hn := hkey
    rw [List.length_append, List.length_cons] at hkey
    rw [PrefixTree.label] at hdrop hpfx hk
    rw [dictLookup_fork (hn ▸ hlabel) hpfx hdrop, hreads.refs_eq, PrefixTree.get_fork_false]
    exact ih ha (by omega)
  | @right l r b a _ ih =>
    obtain ⟨label, payload, hlabel, hreads, k, ca, cb, hk, rfl, ha, hb⟩ := h.ofCell
    obtain ⟨-, hdrop, -⟩ := hreads.descend (true :: r)
    have hpfx := hreads.isPrefixOf_append (true :: r)
    have hn := hkey
    rw [List.length_append, List.length_cons] at hkey
    rw [PrefixTree.label] at hdrop hpfx hk
    rw [dictLookup_fork (hn ▸ hlabel) hpfx hdrop, hreads.refs_eq, PrefixTree.get_fork_true]
    exact ih hb (by omega)

/-- A cell that is made of a label and what is behind it. -/
theorem parses_of_node (hlen : t.label.length ≤ n) (h : Behind canon (n - t.label.length) p t)
    (hc : node t.label n p = some c) : Parses canon n t c := by
  have hbits : c.data.length ≤ maxBits := by
    obtain ⟨rfl, hbits, -⟩ := cellOf_eq_some hc
    exact hbits
  cases t with
  | leaf l v =>
    obtain ⟨hm, rfl⟩ := h
    rw [PrefixTree.label] at hm hlen hc
    have hn : l.length = n := by omega
    have hfork : l.length < n → LabelMode.chkAll.Accepts p := fun hlt => absurd hlt (by omega)
    obtain ⟨label, hlabel, hreads⟩ := LabelParser.ofCell_cellOf hlen hfork hc
    exact .leaf hbits hlabel hreads hn fun _ => hc
  | fork l a b =>
    obtain ⟨k, ca, cb, hm, rfl, ha, hb⟩ := h
    rw [PrefixTree.label] at hm hlen hc
    have hfork : l.length < n → LabelMode.chkAll.Accepts ⟨[], [ca, cb]⟩ := fun _ => ⟨rfl, rfl⟩
    obtain ⟨label, hlabel, hreads⟩ := LabelParser.ofCell_cellOf hlen hfork hc
    exact .fork hbits hlabel hreads (by omega) ha hb fun _ => hc

/-- A stored tree is parsed. -/
theorem parses_of_store (ht : t.Keyed n) (hs : store .plain n t = some c) : Parses canon n t c := by
  induction t generalizing n c with
  | leaf l v =>
    rw [store_leaf] at hs
    exact parses_of_node ht.length_label_le ⟨Nat.sub_eq_zero_of_le (le_of_eq (Eq.symm ht)), rfl⟩ hs
  | fork l a b iha ihb =>
    obtain ⟨p, hp, hc⟩ := store_eq_some hs
    obtain ⟨ca, cb, e, hca, hcb, he, rfl⟩ := below_fork_eq_some hp
    cases he
    have hlen := ht.length_label_le
    obtain ⟨k, hk, ha, hb⟩ := ht
    rw [PrefixTree.label, show n - l.length - 1 = k by omega] at hca hcb
    refine parses_of_node hlen ⟨k, ca, cb, ?_, rfl, iha ha hca, ihb hb hcb⟩ hc
    rw [PrefixTree.label]
    omega

/-- A tree whose labels are written in the shortest way is stored. -/
theorem Parses.store (h : Parses True n t c) : store .plain n t = some c := by
  induction h with
  | leaf _ _ _ _ hcanon => exact hcanon trivial
  | @fork n m c ca cb label l a b _ _ _ hn _ _ hcanon iha ihb =>
    rw [store_fork, show n - l.length - 1 = m by omega, iha, ihb]
    exact hcanon trivial

/-! ## Room -/

omit [Digest] in
theorem refs_of_parse {cs : Slice} {label : LabelParser} (h : LabelParser.parse cs n = some label) :
    label.remainder.refs = cs.refs := by
  unfold LabelParser.parse at h
  dsimp only at h
  split at h
  · cases h
    rfl
  · split at h
    · cases h
    · cases h
      rfl
  · split at h
    · cases h
    · split at h
      · cases h
      · cases h
        rfl
  · split at h
    · cases h
    · split at h
      · cases h
      · cases h
        rfl
  · cases h

omit [Digest] in
/-- No way to write a label is shorter than the shortest. -/
theorem length_labelBits_le_of_parse {cs rest : Slice} {label : LabelParser} {l : List Bool}
    (h : LabelParser.parse cs n = some label) (hreads : label.Reads l rest) :
    l.length ≤ n ∧ (labelBits l n).length + rest.bits.length ≤ cs.bits.length := by
  -- the three ways: in unary, of any bits, of equal bits
  have hlength (hlen : l.length ≤ n) : (labelBits l n).length ≤ 2 * l.length + 2 ∧
      (labelBits l n).length ≤ lenBits n + l.length + 2 ∧
      ∀ b, l = List.replicate l.length b → (labelBits l n).length ≤ lenBits n + 3 := by
    rw [length_labelBits hlen]
    refine ⟨Nat.min_le_left .., ?_, ?_⟩
    · split <;> omega
    · intro b hb
      rw [if_pos (by
        cases l with
        | nil => rfl
        | cons x l =>
          rw [List.length_cons, List.replicate_succ, List.cons.injEq] at hb
          rw [List.headD_cons, List.length_cons, List.replicate_succ, hb.1, ← hb.2])]
      omega
  have hlBits := hreads.lBits_eq
  have hform : label.remainder.bits.length = (if label.lSame.isSome then 0 else l.length) + rest.bits.length ∧
      ∀ b, label.lSame = some b → l = List.replicate l.length b := by
    cases hreads with
    | same b hl =>
      refine ⟨(Nat.zero_add _).symm, ?_⟩
      rintro b' hb
      cases hb
      exact hl
    | any => exact ⟨List.length_append, nofun⟩
  unfold LabelParser.parse at h
  dsimp only at h
  split at h
  · next bits hbits =>
    cases h
    dsimp only at hform hlBits
    obtain ⟨hunary, -, -⟩ := hlength (by omega)
    rw [hbits]
    simp only [Option.isSome_none, Bool.false_eq_true, if_false, List.length_cons] at hform ⊢
    omega
  · next bits hbits =>
    split at h
    · cases h
    · next hlen =>
      cases h
      dsimp only at hform hlBits
      rw [not_or, not_lt, not_lt] at hlen
      obtain ⟨hunary, -, -⟩ := hlength (by omega)
      rw [hbits]
      simp only [Option.isSome_none, Bool.false_eq_true, if_false, List.length_drop] at hform
      rw [List.length_cons]
      omega
  · next bits hbits =>
    split at h
    · cases h
    · next hroom =>
      split at h
      · cases h
      · next hlen =>
        cases h
        dsimp only at hform hlBits
        rw [not_or, not_lt, not_lt] at hlen
        obtain ⟨-, hany, -⟩ := hlength (by omega)
        rw [hbits]
        simp only [Option.isSome_none, Bool.false_eq_true, if_false, List.length_drop, List.length_cons] at hform ⊢
        omega
  · next same bits hbits =>
    split at h
    · cases h
    · next hroom =>
      split at h
      · cases h
      · next hlen =>
        cases h
        dsimp only at hform hlBits
        obtain ⟨-, -, hsame⟩ := hlength (by omega)
        have hsame := hsame same (hform.2 same rfl)
        rw [hbits]
        simp only [Option.isSome_some, if_true, List.length_drop, List.length_cons] at hform ⊢
        omega
  · cases h

omit [Digest] in
theorem parse_of_ofCell {mode : LabelMode} {label : LabelParser} (h : LabelParser.ofCell (some c) n mode = .ok label) :
    c.special = false ∧ LabelParser.parse ⟨c.data, c.refs⟩ n = some label := by
  unfold LabelParser.ofCell at h
  obtain ⟨cs, hload, h⟩ := bind_ok h
  obtain ⟨hordinary, rfl⟩ := loadCellSlice_ok hload
  refine ⟨hordinary, ?_⟩
  cases hparse : LabelParser.parse ⟨(CellSlice.ofCell ⟨c, .none⟩).bits, (CellSlice.ofCell ⟨c, .none⟩).refs⟩ n with
  | none =>
    rw [hparse] at h
    cases h
  | some label' =>
    rw [hparse] at h
    obtain ⟨_, _, h⟩ := bind_ok h
    cases h
    exact hparse

omit [Digest] in
/-- A parsed edge is an ordinary cell with the references that are behind its label. -/
theorem eq_of_ofCell {mode : LabelMode} {label : LabelParser} (h : LabelParser.ofCell (some c) n mode = .ok label) :
    c = .mk false c.data label.remainder.refs := by
  obtain ⟨hordinary, hparse⟩ := parse_of_ofCell h
  rw [refs_of_parse hparse]
  obtain ⟨special, data, refs⟩ := c
  obtain rfl : special = false := hordinary
  rfl

/-- There is room for the shortest way to write the label of a parsed edge. -/
theorem Parses.length_label_le (h : Parses canon n t c) : (labelBits t.label n).length ≤ maxBits := by
  obtain ⟨label, p, hlabel, hreads, -⟩ := h.ofCell
  obtain ⟨-, hlen⟩ := length_labelBits_le_of_parse (parse_of_ofCell hlabel).2 hreads
  have hbits : c.data.length ≤ maxBits := by
    cases h <;> assumption
  dsimp only at hlen
  omega

section Room

variable {N : Nat} {q : List Bool}

/-- The values of a map fit in leaves of keys that continue `q`. -/
def FitsAt (N : Nat) (q : List Bool) (m : List Bool → Option Slice) : Prop := ∀ k v, m k = some v → ValueFits N (q ++ k) v

theorem FitsAt.branch {m : List Bool → Option Slice} (h : FitsAt N q m) (l : List Bool) (b : Bool) :
    FitsAt N (q ++ l ++ [b]) fun k => m (l ++ b :: k) := by
  intro k v hk
  simpa using h (l ++ b :: k) v hk

theorem FitsAt.fork {l : List Bool} (h : FitsAt N q (PrefixTree.fork l a b).get) :
    FitsAt N (q ++ l ++ [false]) a.get ∧ FitsAt N (q ++ l ++ [true]) b.get := by
  have hleft := h.branch l false
  have hright := h.branch l true
  simp only [PrefixTree.get_fork_false, PrefixTree.get_fork_true] at hleft hright
  exact ⟨hleft, hright⟩

/-- The depth of a parsed tree comes from its values and the bits of its keys. -/
theorem Parses.within (h : Parses canon n t c) (hq : q.length + n = N) (hfit : FitsAt N q t.get) :
    c.Within (maxDepth - N + n) := by
  induction h generalizing q with
  | leaf _ hlabel hreads _ _ =>
    have hc := eq_of_ofCell hlabel
    rw [hreads.refs_eq] at hc
    obtain ⟨c', hc', hwithin⟩ := hfit _ _ (PrefixTree.get_leaf_self _ _)
    obtain ⟨rfl, -⟩ := cellOf_eq_some hc'
    rw [hc]
    exact (hwithin.relabel _).mono (Nat.le_add_right _ _)
  | fork _ hlabel hreads hn _ _ _ iha ihb =>
    have hc := eq_of_ofCell hlabel
    rw [hreads.refs_eq] at hc
    obtain ⟨hfita, hfitb⟩ := hfit.fork
    have hwa := iha (by simp; omega) hfita
    have hwb := ihb (by simp; omega) hfitb
    rw [hc]
    exact (hwa.fork hwb _).mono (by omega)

/-- A label and what is behind it make a cell, if the values below fit. -/
theorem node_of_fits (hN : N ≤ maxDepth) (ht : t.Keyed n) (hb : Behind canon (n - t.label.length) p t) (hq : q.length + n = N)
    (hfit : FitsAt N q t.get) : ∃ c, node t.label n p = some c := by
  have hlen := ht.length_label_le
  -- the label is part of a key
  obtain ⟨k, v, hk⟩ := ht.exists_get
  obtain ⟨r, hr⟩ := PrefixTree.get_eq_some_label hk
  have hklen : k.length = n := by
    by_contra hne
    rw [ht.get_eq_none hne] at hk
    cases hk
  obtain ⟨c', hc', hwithin⟩ := hfit k v hk
  obtain ⟨rfl, hbits, hrefs, -⟩ := cellOf_eq_some hc'
  have hshort : (labelBits t.label n).length ≤ (labelBits (q ++ k) N).length :=
    length_labelBits_le ⟨q, r, by rw [hr, List.append_assoc]⟩ hlen (by rw [List.length_append]; omega) (by omega)
  rw [List.length_append] at hbits
  cases t with
  | leaf l u =>
    obtain ⟨-, rfl⟩ := hb
    rw [PrefixTree.label] at hr
    obtain rfl : k = l := by
      have := ht
      simp only [PrefixTree.Keyed] at this
      rw [hr, List.length_append] at hklen
      rw [hr, List.length_eq_zero_iff.1 (show r.length = 0 by omega), List.append_nil]
    rw [PrefixTree.get_leaf_self] at hk
    cases hk
    exact ⟨_, cellOf_eq (by rw [List.length_append]; omega) hrefs ((hwithin.relabel _).mono (Nat.sub_le maxDepth N))⟩
  | fork l a b =>
    obtain ⟨m, ca, cb, hm, rfl, ha, hb⟩ := hb
    rw [PrefixTree.label] at hm
    obtain ⟨hfita, hfitb⟩ := hfit.fork
    have hwa := ha.within (by simp; omega) hfita
    have hwb := hb.within (by simp; omega) hfitb
    exact ⟨_, cellOf_eq (by rw [List.length_append]; simp; omega) (show 2 ≤ 4 by decide) ((hwa.fork hwb _).mono (by omega))⟩

end Room

omit [Digest] in
/-- What two searches side by side read of the key, whose end is the part of each label that was read before. -/
theorem along_key {key s1 s2 l1 l2 : List Bool} {c : Nat} (hs1 : s1 <:+ key) (hs2 : s2 <:+ key)
    (hc : commonPrefixLen l2 l1 = c) :
    key.take (key.length - s1.length) ++ (s1 ++ l1) = key ++ l1 ∧ (key ++ l1).drop (key.length - s2.length) = s2 ++ l1 ∧
      commonPrefixLen (s2 ++ l2) (s2 ++ l1) - s2.length = c ∧ (s1 ++ l1).length - s1.length = l1.length ∧
      (s2 ++ l2).length - s2.length = l2.length := by
  obtain ⟨p, hp⟩ := hs1
  obtain ⟨q, hq⟩ := hs2
  refine ⟨?_, ?_, by rw [commonPrefixLen_append, Nat.add_sub_cancel_left, hc], by simp, by simp⟩
  · rw [← hp, List.length_append, Nat.add_sub_cancel, List.take_left, List.append_assoc]
  · rw [← hq, List.length_append, Nat.add_sub_cancel, List.append_assoc, List.drop_left]

end TonWallet.Vm.Dict
