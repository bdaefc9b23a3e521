/-
Dictionaries of every kind as trees: a cell whose labels are parsed all the way down, with whatever a kind of dictionary
keeps beside the branches of a fork, and with rules for what stands at the leaves and at the forks.
-/
import TonWallet.Vm.Dict.Parse
import TonWallet.Vm.Dictionary

namespace TonWallet.Vm.Dict

open Lib TonWallet.Td CellBuilder

/-- What is asked of what stands behind a label: at a leaf, with its key, and at a fork of two trees with `n` bits of the
keys behind the label. -/
structure NodeRules where
  leaf : List Bool → Slice → Prop
  fork : Nat → PrefixTree Slice → PrefixTree Slice → Slice → Prop

/-- Nothing is asked. -/
def NodeRules.none : NodeRules := ⟨fun _ _ => True, fun _ _ _ _ => True⟩

/-- A cell is parsed as a tree whose keys have length `n` and come after the bits `q`. -/
inductive Shape (mode : LabelMode) (R : NodeRules) : List Bool → Nat → PrefixTree Slice → Cell → Prop
  | leaf {q : List Bool} {n : Nat} {c : Cell} {label : LabelParser} {l : List Bool} {v : Slice}
      (hlabel : LabelParser.ofCell (some c) n mode = .ok label) (hreads : label.Reads l v) (hn : l.length = n)
      (hrule : R.leaf (q ++ l) v) : Shape mode R q n (.leaf l v) c
  | fork {q : List Bool} {n m : Nat} {c ca cb : Cell} {label : LabelParser} {l : List Bool} {a b : PrefixTree Slice}
      {e : Slice} (hlabel : LabelParser.ofCell (some c) n mode = .ok label)
      (hreads : label.Reads l ⟨e.bits, ca :: cb :: e.refs⟩) (hn : l.length + 1 + m = n)
      (hrule : R.fork (m + 1) a b ⟨e.bits, ca :: cb :: e.refs⟩) (ha : Shape mode R (q ++ l ++ [false]) m a ca)
      (hb : Shape mode R (q ++ l ++ [true]) m b cb) : Shape mode R q n (.fork l a b) c

/-- What is behind the label of an edge, after the bits `q` and the label, with `m` bits of the keys left. -/
def BehindShape (mode : LabelMode) (R : NodeRules) (q : List Bool) (m : Nat) (p : Slice) : PrefixTree Slice → Prop
  | .leaf _ v => m = 0 ∧ p = v ∧ R.leaf q v
  | .fork _ a b => ∃ (k : Nat) (ca cb : Cell) (e : Slice), m = k + 1 ∧ p = ⟨e.bits, ca :: cb :: e.refs⟩ ∧ R.fork (k + 1) a b p ∧
      Shape mode R (q ++ [false]) k a ca ∧ Shape mode R (q ++ [true]) k b cb

/-- A root is parsed as a tree that may be empty. -/
def Shape? (mode : LabelMode) (R : NodeRules) (n : Nat) : Option (PrefixTree Slice) → Option Cell → Prop
  | none, root => root = none
  | some t, root => ∃ c, root = some c ∧ Shape mode R [] n t c

section

variable {mode : LabelMode} {R R' : NodeRules} {q q' : List Bool} {n m : Nat} {t t' : PrefixTree Slice} {c : Cell} {p : Slice}

@[simp] theorem behindShape_withLabel (l : List Bool) :
    BehindShape mode R q m p (t.withLabel l) = BehindShape mode R q m p t := by
  cases t <;> rfl

theorem Shape.keyed (h : Shape mode R q n t c) : t.Keyed n := by
  induction h with
  | leaf _ _ hn _ => exact hn
  | fork _ _ hn _ _ _ iha ihb => exact ⟨_, hn, iha, ihb⟩

/-- The label of an edge, and what is behind it. -/
theorem Shape.ofCell (h : Shape mode R q n t c) :
    ∃ label p, LabelParser.ofCell (some c) n mode = .ok label ∧ label.Reads t.label p ∧
      BehindShape mode R (q ++ t.label) (n - t.label.length) p t := by
  cases h with
  | leaf hlabel hreads hn hrule => exact ⟨_, _, hlabel, hreads, by simp [PrefixTree.label, hn], rfl, hrule⟩
  | @fork _ _ m _ ca cb _ l a b e hlabel hreads hn hrule ha hb =>
    refine ⟨_, _, hlabel, hreads, m, ca, cb, e, ?_, rfl, hrule, ha, hb⟩
    rw [PrefixTree.label]
    omega

/-- The label of an edge that is read with the bits in front of it. -/
theorem Shape.ofCell_prepend {s : List Bool} (h : Shape mode R q (n + s.length) (t.prepend s) c) :
    t.Keyed n ∧ ∃ label p, LabelParser.ofCell (some c) (n + s.length) mode = .ok label ∧
      label.Reads (s ++ t.label) p ∧ BehindShape mode R (q ++ s ++ t.label) (n - t.label.length) p t := by
  have hkeyed := h.keyed.of_prepend
  have hlen := hkeyed.length_label_le
  obtain ⟨label, p, hlabel, hreads, hbehind⟩ := h.ofCell
  rw [PrefixTree.label_prepend] at hreads hbehind
  refine ⟨hkeyed, label, p, hlabel, hreads, ?_⟩
  rw [PrefixTree.prepend, behindShape_withLabel, List.length_append, ← List.append_assoc] at hbehind
  rwa [show n + s.length - (s.length + t.label.length) = n - t.label.length by omega] at hbehind

/-- A tree whose label ends in front of the end of the keys is a fork. -/
theorem BehindShape.fork {l : List Bool} (h : BehindShape mode R (q ++ l) (n - l.length) p t) (hl : t.label = l)
    (hlt : l.length < n) : ∃ (a b : PrefixTree Slice) (m : Nat) (ca cb : Cell) (e : Slice), t = .fork l a b ∧
      l.length + 1 + m = n ∧ p = ⟨e.bits, ca :: cb :: e.refs⟩ ∧ R.fork (m + 1) a b p ∧
      Shape mode R (q ++ l ++ [false]) m a ca ∧ Shape mode R (q ++ l ++ [true]) m b cb := by
  subst hl
  cases t with
  | leaf l v => exact absurd h.1 (by rw [PrefixTree.label] at hlt ⊢; omega)
  | fork l a b =>
    obtain ⟨m, ca, cb, e, hm, hp, hrule, ha, hb⟩ := h
    rw [PrefixTree.label] at hm hlt ha hb
    exact ⟨a, b, m, ca, cb, e, rfl, by rw [PrefixTree.label]; omega, hp, hrule, ha, hb⟩

/-- A tree whose label is all there is of the keys is a leaf. -/
theorem BehindShape.leaf {l : List Bool} (h : BehindShape mode R (q ++ l) (n - l.length) p t) (hl : t.label = l)
    (hn : l.length = n) : t = .leaf l p ∧ R.leaf (q ++ l) p := by
  subst hl
  cases t with
  | leaf l v =>
    obtain ⟨-, rfl, hrule⟩ := h
    exact ⟨rfl, hrule⟩
  | fork l a b =>
    obtain ⟨m, -, -, -, hm, -⟩ := h
    omega

omit R R' q q' n m t t' c p in
theorem reads_unique {label : LabelParser} {l l' : List Bool} {p p' : Slice} (h : label.Reads l p)
    (h' : label.Reads l' p') : l = l' ∧ p = p' :=
  ⟨h.bits_eq.symm.trans h'.bits_eq, h.payload_eq.symm.trans h'.payload_eq⟩

/-- A cell is parsed in one way only. -/
theorem Shape.unique (h : Shape mode R q n t c) (h' : Shape mode R' q' n t' c) : t = t' := by
  induction h generalizing t' q' with
  | leaf hlabel hreads hn _ =>
    cases h' with
    | leaf hlabel' hreads' _ _ =>
      cases hlabel.symm.trans hlabel'
      obtain ⟨rfl, rfl⟩ := reads_unique hreads hreads'
      rfl
    | fork hlabel' hreads' hn' _ _ _ =>
      cases hlabel.symm.trans hlabel'
      obtain ⟨rfl, -⟩ := reads_unique hreads hreads'
      omega
  | fork hlabel hreads hn _ _ _ iha ihb =>
    cases h' with
    | leaf hlabel' hreads' hn' _ =>
      cases hlabel.symm.trans hlabel'
      obtain ⟨rfl, -⟩ := reads_unique hreads hreads'
      omega
    | fork hlabel' hreads' hn' _ ha' hb' =>
      cases hlabel.symm.trans hlabel'
      obtain ⟨rfl, hp⟩ := reads_unique hreads hreads'
      rw [Slice.mk.injEq, List.cons.injEq, List.cons.injEq] at hp
      obtain ⟨-, rfl, rfl, -⟩ := hp
      obtain rfl := Nat.add_left_cancel (hn.trans hn'.symm)
      rw [iha ha', ihb hb']

end

end TonWallet.Vm.Dict

namespace TonWallet.Vm.DictionaryBase

open Lib Dict

/-- The root of a dictionary is parsed as the tree of a map, by the rules of its kind. -/
def Shaped (mode : LabelMode) (R : NodeRules) (d : DictionaryBase) (m : List Bool → Option Slice) : Prop :=
  ∃ t, Shape? mode R d.keyBits t d.rootCell ∧ ∀ k, PrefixTree.get? t k = m k

theorem Shaped.cases {mode : LabelMode} {R : NodeRules} {d : DictionaryBase} {m : List Bool → Option Slice}
    (h : d.Shaped mode R m) :
    (d.rootCell = none ∧ m = fun _ => none) ∨
      ∃ t c, d.rootCell = some c ∧ Shape mode R [] d.keyBits t c ∧ m = t.get := by
  obtain ⟨t, hroot, hget⟩ := h
  cases t with
  | none => exact .inl ⟨hroot, funext fun k => (hget k).symm⟩
  | some t =>
    obtain ⟨c, hc, ht⟩ := hroot
    exact .inr ⟨t, c, hc, ht, funext fun k => (hget k).symm⟩

end TonWallet.Vm.DictionaryBase
