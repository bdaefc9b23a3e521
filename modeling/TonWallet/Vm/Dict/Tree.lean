/-
How a dictionary stores a tree in cells (`Hashmap` and `HashmapAug`): one cell for each edge, with the edge's
label and behind it the value of a leaf, or the two branches of a fork. A plain dictionary stores nothing more;
what an augmented one stores besides is left to a layout.
-/
import TonWallet.Vm.Dict.Label

namespace TonWallet.Vm.Dict

open Lib TonWallet.Td CellBuilder

variable [Digest]

/-- The cell of an edge: its label, among keys that have `n` bits left, and what is behind it. -/
def node (label : List Bool) (n : Nat) (payload : Slice) : Option Cell :=
  cellOf ⟨labelBits label n ++ payload.bits, payload.refs⟩

/-- What stands at a leaf for a value, and what follows the branches of a fork. -/
structure Layout where
  leaf : Slice → Option Slice
  fork : PrefixTree Slice → PrefixTree Slice → Option Slice

/-- A plain dictionary stores the values and the branches. -/
def Layout.plain : Layout := ⟨some, fun _ _ => some .empty⟩

/-- What follows the label of an edge that has `m` bits of the keys below it. -/
def below (L : Layout) : Nat → PrefixTree Slice → Option Slice
  | _, .leaf _ v => L.leaf v
  | m, .fork _ a b =>
    ((below L (m - 1 - a.label.length) a).bind (node a.label (m - 1))).bind fun ca =>
      ((below L (m - 1 - b.label.length) b).bind (node b.label (m - 1))).bind fun cb =>
        (L.fork a b).map fun e => ⟨e.bits, ca :: cb :: e.refs⟩

/-- The root cell of a tree whose keys have length `n`. -/
def store (L : Layout) (n : Nat) (t : PrefixTree Slice) : Option Cell :=
  (below L (n - t.label.length) t).bind (node t.label n)

/-- The root cell of a tree that may be empty. -/
def store? (L : Layout) (n : Nat) : Option (PrefixTree Slice) → Option (Option Cell)
  | none => some none
  | some t => (store L n t).map some

/-! ## Stored trees -/

variable {L : Layout} {n : Nat}

@[simp] theorem below_withLabel (m : Nat) (l : List Bool) (t : PrefixTree Slice) :
    below L m (t.withLabel l) = below L m t := by
  cases t <;> rfl

theorem store_leaf (l : List Bool) (v : Slice) : store L n (.leaf l v) = (L.leaf v).bind (node l n) := rfl

theorem below_fork (m : Nat) (l : List Bool) (a b : PrefixTree Slice) :
    below L m (.fork l a b) = (store L (m - 1) a).bind fun ca => (store L (m - 1) b).bind fun cb =>
      (L.fork a b).map fun e => ⟨e.bits, ca :: cb :: e.refs⟩ := by
  rw [below]
  rfl

theorem store_fork (l : List Bool) (a b : PrefixTree Slice) :
    store L n (.fork l a b) = (store L (n - l.length - 1) a).bind fun ca => (store L (n - l.length - 1) b).bind fun cb =>
      (L.fork a b).bind fun e => node l n ⟨e.bits, ca :: cb :: e.refs⟩ := by
  rw [store, PrefixTree.label, below_fork]
  simp only [Option.bind_assoc, Option.bind_map]
  rfl

theorem store_withLabel {t : PrefixTree Slice} {l : List Bool} {m : Nat} (h : n - l.length = m - t.label.length) :
    store L n (t.withLabel l) = (below L (m - t.label.length) t).bind (node l n) := by
  unfold store
  rw [PrefixTree.label_withLabel, below_withLabel, h]

/-- The parts of a stored edge. -/
theorem store_eq_some {t : PrefixTree Slice} {c : Cell} (h : store L n t = some c) :
    ∃ p, below L (n - t.label.length) t = some p ∧ node t.label n p = some c :=
  Option.bind_eq_some_iff.1 h

theorem store?_some {t : PrefixTree Slice} {root : Option Cell} (h : store? L n (some t) = some root) :
    ∃ c, store L n t = some c ∧ root = some c := by
  obtain ⟨c, hc, hroot⟩ := Option.map_eq_some_iff.1 h
  exact ⟨c, hc, hroot.symm⟩

/-- The parts of what is behind the label of a stored fork. -/
theorem below_fork_eq_some {m : Nat} {l : List Bool} {a b : PrefixTree Slice} {p : Slice}
    (h : below L m (.fork l a b) = some p) :
    ∃ ca cb e, store L (m - 1) a = some ca ∧ store L (m - 1) b = some cb ∧ L.fork a b = some e ∧
      p = ⟨e.bits, ca :: cb :: e.refs⟩ := by
  rw [below_fork] at h
  obtain ⟨ca, hca, h⟩ := Option.bind_eq_some_iff.1 h
  obtain ⟨cb, hcb, h⟩ := Option.bind_eq_some_iff.1 h
  obtain ⟨e, he, rfl⟩ := Option.map_eq_some_iff.1 h
  exact ⟨ca, cb, e, hca, hcb, he, rfl⟩

/-- The values of a stored tree are stored. -/
theorem leaf_of_store {t : PrefixTree Slice} {c : Cell} (h : store L n t = some c) {k : List Bool} {u : Slice}
    (hu : t.get k = some u) : ∃ p, L.leaf u = some p := by
  induction t generalizing n c k with
  | leaf l v =>
    obtain ⟨p, hp, -⟩ := store_eq_some h
    simp only [PrefixTree.get] at hu
    split at hu
    · cases hu
      exact ⟨p, hp⟩
    · cases hu
  | fork l a b iha ihb =>
    obtain ⟨p, hp, -⟩ := store_eq_some h
    obtain ⟨ca, cb, e, hca, hcb, -, -⟩ := below_fork_eq_some hp
    simp only [PrefixTree.get] at hu
    split at hu
    · exact iha hca hu
    · exact ihb hcb hu
    · cases hu

theorem leaf_of_store? {t : Option (PrefixTree Slice)} {root : Option Cell} (h : store? L n t = some root)
    {k : List Bool} {u : Slice} (hu : PrefixTree.get? t k = some u) : ∃ p, L.leaf u = some p := by
  cases t with
  | none => cases hu
  | some t =>
    obtain ⟨c, hc, -⟩ := store?_some h
    exact leaf_of_store hc hu

/-- A fork with a branch that is not stored is not stored. -/
theorem store?_rejoin_eq_none {m : Nat} {l : List Bool} (hm : l.length + 1 + m = n) {a : Option (PrefixTree Slice)}
    (h : store? L m a = none) (b : PrefixTree Slice) :
    store? L n (PrefixTree.rejoin l a (some b)) = none ∧ store? L n (PrefixTree.rejoin l (some b) a) = none := by
  cases a with
  | none => cases h
  | some a =>
    have ha : store L m a = none := Option.map_eq_none_iff.1 h
    have hlen : n - l.length - 1 = m := by omega
    simp only [PrefixTree.rejoin, store?, store_fork, hlen, ha]
    cases store L m b <;> exact ⟨rfl, rfl⟩

end TonWallet.Vm.Dict
