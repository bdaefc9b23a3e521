/-
Ways for cells to stand for the trees of a dictionary, as the code that goes down a dictionary and makes it anew sees
them: an edge is read as its label and what is behind it, and cells that are made of the same parts stand for the same.
-/
import TonWallet.Lib.PrefixCut
import TonWallet.Vm.Dict.Lookup

namespace TonWallet.Vm.Dict

open Lib TonWallet.Td CellBuilder

/-- A relation of cells to trees that a tree which may be empty has to a root. -/
def Root (R : Nat → PrefixTree Slice → Cell → Prop) (n : Nat) : Option (PrefixTree Slice) → Option Cell → Prop
  | none, root => root = none
  | some t, root => ∃ c, root = some c ∧ R n t c

variable [Digest]

/-- Cells stand for trees by `R`, and what is behind the label of an edge by `B`, which has the bits of the keys left. -/
structure Represents (ops : ForkOps) (L : Layout) (R : Nat → PrefixTree Slice → Cell → Prop)
    (B : Nat → Slice → PrefixTree Slice → Prop) : Prop where
  keyed : ∀ {n t c}, R n t c → t.Keyed n
  ofCell : ∀ {n t c}, R n t c → ∃ label p, LabelParser.ofCell (some c) n ops.labelMode = .ok label ∧
    label.Reads t.label p ∧ B (n - t.label.length) p t
  leaf : ∀ {m p l v}, B m p (.leaf l v) → L.leaf v = some p
  fork : ∀ {m p l a b}, B m p (.fork l a b) → ∃ k ca cb, m = k + 1 ∧ p.refs[0]? = some ca ∧ p.refs[1]? = some cb ∧
    R k a ca ∧ R k b cb
  withLabel : ∀ {m p t} (l : List Bool), B m p t → B m p (t.withLabel l)
  node : ∀ {n p t c}, t.Keyed n → B (n - t.label.length) p t → node t.label n p = some c → R n t c
  createFork : ∀ {l k n a b ca cb c}, l.length + 1 + k = n → R k a ca → R k b cb →
    createFork ops l n (some ca) (some cb) = .ok c → R n (.fork l a b) c

/-! ## What is read -/

section Represents

variable {ops : ForkOps} {L : Layout} {R : Nat → PrefixTree Slice → Cell → Prop} {B : Nat → Slice → PrefixTree Slice → Prop}
  (h : Represents ops L R B) {n m : Nat} {l : List Bool} {a b t : PrefixTree Slice} {v : Slice} {c : Cell}

include h

/-- A leaf is read as its label and its value. -/
theorem Represents.ofCell_leaf (hc : R n (.leaf l v) c) : ∃ label p,
    LabelParser.ofCell (some c) n ops.labelMode = .ok label ∧ label.Reads l p ∧ L.leaf v = some p ∧ l.length = n := by
  obtain ⟨label, p, hlabel, hreads, hb⟩ := h.ofCell hc
  exact ⟨label, p, hlabel, hreads, h.leaf hb, h.keyed hc⟩

/-- A fork is read as its label and its branches. -/
theorem Represents.ofCell_fork (hc : R n (.fork l a b) c) : ∃ label k ca cb,
    LabelParser.ofCell (some c) n ops.labelMode = .ok label ∧ label.lBits = l.length ∧ label.bits = l ∧
      label.remainder.refs[0]? = some ca ∧ label.remainder.refs[1]? = some cb ∧ l.length + 1 + k = n ∧
      R k a ca ∧ R k b cb := by
  obtain ⟨label, p, hlabel, hreads, hb⟩ := h.ofCell hc
  obtain ⟨k, ca, cb, hk, hfirst, hsecond, ha, hb⟩ := h.fork hb
  have hlen := (h.keyed hc).length_label_le
  rw [PrefixTree.label] at hlen hk
  rw [← hreads.refs_eq] at hfirst hsecond
  exact ⟨label, k, ca, cb, hlabel, hreads.lBits_eq, hreads.bits_eq, hfirst, hsecond, by omega, ha, hb⟩

/-! ## What is made -/

/-- An edge under another label, for keys that have as many bits below it. -/
theorem Represents.relabel (hc : R n t c) {n' : Nat} {l' : List Bool} (hn : l'.length + (n - t.label.length) = n') :
    ∃ label p, LabelParser.ofCell (some c) n ops.labelMode = .ok label ∧ label.Reads t.label p ∧
      ∀ c', Dict.node l' n' p = some c' → R n' (t.withLabel l') c' := by
  obtain ⟨label, p, hlabel, hreads, hb⟩ := h.ofCell hc
  have hbelow : B (n' - (t.withLabel l').label.length) p (t.withLabel l') := by
    rw [PrefixTree.label_withLabel, show n' - l'.length = n - t.label.length by omega]
    exact h.withLabel l' hb
  refine ⟨label, p, hlabel, hreads, fun c' hc' => h.node ((h.keyed hc).withLabel hn) hbelow ?_⟩
  rwa [PrefixTree.label_withLabel]

/-- The only branch of a fork gets the fork's label. -/
theorem Represents.collapseEdge (hm : l.length + 1 + m = n) (hc : R m t c) (side : Bool) {c' : Cell}
    (hc' : collapseEdge ops l n side c = .ok c') : R n (t.prepend (l ++ [side])) c' := by
  have hlen := (h.keyed hc).length_label_le
  have hlength : (l ++ [side] ++ t.label).length + (m - t.label.length) = n := by
    simp only [List.length_append, List.length_singleton]
    omega
  obtain ⟨label, p, hlabel, hreads, hmade⟩ := h.relabel hc hlength
  refine hmade c' ?_
  have hcell := congrArg Except.toOption hc'
  rw [Dict.collapseEdge, show n - l.length - 1 = m by omega, hlabel, toOption_bind, toOption_ok, Option.bind_some,
    hreads.bits_eq, hreads.payload_eq, toOption_relabel (toOption_appendDictLabel _ n), toOption_ok] at hcell
  exact hcell

/-- Branches that have changed make a tree again. -/
theorem Represents.rejoin (hm : l.length + 1 + m = n) {a b : Option (PrefixTree Slice)} {ra rb res : Option Cell}
    (ha : Root R m a ra) (hb : Root R m b rb) (hres : rejoinCells ops l n ra rb = .ok res) :
    Root R n (PrefixTree.rejoin l a b) res := by
  cases a with
  | none =>
    cases ha
    cases b with
    | none =>
      cases hb
      cases hres
      rfl
    | some b =>
      obtain ⟨cb, rfl, hb⟩ := hb
      obtain ⟨c, hc, hres⟩ := bind_ok hres
      cases hres
      exact ⟨c, rfl, h.collapseEdge hm hb true hc⟩
  | some a =>
    obtain ⟨ca, rfl, ha⟩ := ha
    cases b with
    | none =>
      cases hb
      obtain ⟨c, hc, hres⟩ := bind_ok hres
      cases hres
      exact ⟨c, rfl, h.collapseEdge hm ha false hc⟩
    | some b =>
      obtain ⟨cb, rfl, hb⟩ := hb
      obtain ⟨c, hc, hres⟩ := bind_ok hres
      cases hres
      exact ⟨c, rfl, h.createFork hm ha hb hc⟩

end Represents

/-! ## Stored trees -/

/-- A tree of keys of length `n` is stored as a cell. -/
def StoredAs (L : Layout) (n : Nat) (t : PrefixTree Slice) (c : Cell) : Prop := t.Keyed n ∧ store L n t = some c

/-- What is stored behind the label of an edge with `m` bits of the keys below it. -/
def StoredBelow (L : Layout) (m : Nat) (p : Slice) (t : PrefixTree Slice) : Prop :=
  (t.withLabel []).Keyed m ∧ below L m t = some p

theorem represents_store {ops : ForkOps} {L : Layout} (h : ops.Implements L) :
    Represents ops L (StoredAs L) (StoredBelow L) where
  keyed hc := hc.1
  ofCell {n t c} hc := by
    obtain ⟨label, p, hlabel, hreads, hp⟩ := h.ofCell_store hc.1 hc.2
    exact ⟨label, p, hlabel, hreads, hc.1.withLabel (Nat.zero_add _), hp⟩
  leaf hb := hb.2
  fork {m p l a b} hb := by
    obtain ⟨⟨k, hk, ha, hb'⟩, hp⟩ := hb
    obtain ⟨ca, cb, e, hca, hcb, -, rfl⟩ := below_fork_eq_some hp
    rw [List.length_nil] at hk
    rw [show m - 1 = k by omega] at hca hcb
    exact ⟨k, ca, cb, by omega, rfl, rfl, ⟨ha, hca⟩, ⟨hb', hcb⟩⟩
  withLabel {m p t} l hb := by
    refine ⟨?_, by rw [below_withLabel]; exact hb.2⟩
    have hsame : (t.withLabel l).withLabel [] = t.withLabel [] := by cases t <;> rfl
    rw [hsame]
    exact hb.1
  node {n p t c} ht hb hc := ⟨ht, by rw [store, hb.2]; exact hc⟩
  createFork {l k n a b ca cb c} hk ha hb hc := by
    refine ⟨⟨k, hk, ha.1, hb.1⟩, ?_⟩
    rw [← h.toOption_fork ha.1 hb.1 ha.2 hb.2 hk, hc, toOption_ok]

/-- A tree that may be empty is stored as its root. -/
theorem root_storedAs_iff {L : Layout} {n : Nat} {t : Option (PrefixTree Slice)} {root : Option Cell} :
    Root (StoredAs L) n t root ↔ PrefixTree.Keyed? n t ∧ store? L n t = some root := by
  cases t with
  | none =>
    exact ⟨fun h => ⟨PrefixTree.keyed?_none n, by rw [h]; rfl⟩, fun h => (Option.some.inj h.2).symm⟩
  | some t =>
    constructor
    · rintro ⟨c, rfl, ht, hs⟩
      exact ⟨ht.some, by rw [store?, hs]; rfl⟩
    · rintro ⟨ht, hs⟩
      obtain ⟨c, hc, hroot⟩ := store?_some hs
      exact ⟨c, hroot, ht t rfl, hc⟩

end TonWallet.Vm.Dict
