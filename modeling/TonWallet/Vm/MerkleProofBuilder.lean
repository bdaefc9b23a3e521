/-
Proofs of what a program has read (`MerkleProofBuilder`): the cells are loaded through a tree of nodes that remembers
which of them were loaded (`CellUsageTree`, `UsageCell`), and the proof keeps exactly the cells with the hashes of
those. The program runs on the proof as it ran on the tree.
-/
import TonWallet.Vm.MerkleProof

namespace TonWallet.Vm

open Lib TonWallet.Td TonWallet.Ton

/-! ## Usage trees -/

/-- `CellUsageTree::Node` -/
structure UsageNode where
  isLoaded : Bool := false
  hasMark : Bool := false
  parent : Nat := 0
  children : List Nat := List.replicate maxRefs 0

structure CellUsageTree where
  useMark : Bool := false
  nodes : List UsageNode := [{}, {}]

namespace CellUsageTree

def rootId : Nat := 1

def node (tree : CellUsageTree) (id : Nat) : UsageNode := tree.nodes.getD id {}

def isLoaded (tree : CellUsageTree) (id : Nat) : Bool :=
  if tree.useMark then (tree.node id).hasMark else (tree.node id).isLoaded

def getChild (tree : CellUsageTree) (id refId : Nat) : Nat := (tree.node id).children.getD refId 0

def onLoad (tree : CellUsageTree) (id : Nat) : CellUsageTree :=
  { tree with nodes := tree.nodes.modify id fun n => { n with isLoaded := true } }

def createNode (tree : CellUsageTree) (parent : Nat) : CellUsageTree × Nat :=
  ({ tree with nodes := tree.nodes ++ [{ parent := parent }] }, tree.nodes.length)

def createChild (tree : CellUsageTree) (id refId : Nat) : CellUsageTree × Nat :=
  if tree.getChild id refId ≠ 0 then (tree, tree.getChild id refId)
  else
    let (tree, res) := tree.createNode id
    ({ tree with nodes := tree.nodes.modify id fun n => { n with children := n.children.set refId res } }, res)

end CellUsageTree

/-- `UsageCell`: a plain cell with its node; node 0 stands for no node. -/
structure UsageCell where
  cell : Cell
  node : Nat

namespace UsageCell

/-- `UsageCell::load_cell` tells the tree. -/
def onLoad (r : UsageCell) (tree : CellUsageTree) : CellUsageTree := if r.node = 0 then tree else tree.onLoad r.node

/-- `prefetch_ref` of each reference of a slice with a node, from one on. -/
def prefetchRefs (node : Nat) : List Cell → Nat → CellUsageTree → List UsageCell × CellUsageTree
  | [], _, tree => ([], tree)
  | c :: cs, i, tree =>
    let (tree, child) := if node = 0 then (tree, 0) else tree.createChild node i
    let (rs, tree) := prefetchRefs node cs (i + 1) tree
    (⟨c, child⟩ :: rs, tree)

end UsageCell

namespace Reader

variable {α : Type} [Digest]

def usageRef (refs : List UsageCell) (i : Nat) : Result UsageCell := match refs[i]? with
  | some r => .ok r
  | none => .error (.check "deferencing null Ref")

/-- Run a program that has references through a usage tree. -/
def runUsage : Reader α → List UsageCell → CellUsageTree → Result (α × CellUsageTree)
  | done a, _, tree => .ok (a, tree)
  | error e, _, _ => .error e
  | load i next, refs, tree => do
    let r ← usageRef refs i
    let cs ← loadCellSlice ⟨r.cell, .none⟩
    let (rs, tree) := UsageCell.prefetchRefs r.node cs.refs 0 (r.onLoad tree)
    runUsage (next cs.view) (refs ++ rs) tree
  | loadNoVm i next, refs, tree => do
    let r ← usageRef refs i
    let cs ← Vm.loadNoVm ⟨r.cell, .none⟩
    let (rs, tree) := UsageCell.prefetchRefs r.node cs.refs 0 (r.onLoad tree)
    runUsage (next cs.view) (refs ++ rs) tree
  | hash i next, refs, tree => do
    let r ← usageRef refs i
    runUsage (next (⟨r.cell, .none⟩ : CellRef).reprHash) refs tree

end Reader

namespace MerkleProof

variable [Digest]

mutual
/-- `MerkleProofImpl::dfs_usage_tree`: the hashes put into `visited_cells_`. -/
def dfsUsageTree (tree : CellUsageTree) : Cell → Nat → List Bits256
  | .mk special data refs, node =>
    if tree.isLoaded node then (Cell.mk special data refs).getHash maxLevel :: dfsUsageRefs tree refs node 0 else []
/-- Its loop over the references. -/
def dfsUsageRefs (tree : CellUsageTree) : List Cell → Nat → Nat → List Bits256
  | [], _, _ => []
  | r :: rs, node, i => dfsUsageTree tree r (tree.getChild node i) ++ dfsUsageRefs tree rs node (i + 1)
end

/-- `is_prunned_` of a proof that is made from a usage tree. -/
def notVisited (tree : CellUsageTree) (root c : Cell) : Bool :=
  !(dfsUsageTree tree root CellUsageTree.rootId).contains (c.getHash maxLevel)

/-- `MerkleProofBuilder::extract_proof` -/
def extractProof (tree : CellUsageTree) (origRoot : Cell) : Result (Option Cell) :=
  generate (notVisited tree origRoot) origRoot

end MerkleProof

/-! ## What a tree keeps -/

namespace CellUsageTree

/-- A later tree: what was loaded stays loaded, and no child is lost. -/
structure Extends (t u : CellUsageTree) : Prop where
  length : t.nodes.length ≤ u.nodes.length
  mark : t.useMark = u.useMark
  loaded : ∀ id, (t.node id).isLoaded = true → (u.node id).isLoaded = true
  child : ∀ id i, t.getChild id i ≠ 0 → u.getChild id i = t.getChild id i

namespace Extends

variable {t u w : CellUsageTree}

theorem refl (t : CellUsageTree) : Extends t t := ⟨le_rfl, rfl, fun _ h => h, fun _ _ _ => rfl⟩

theorem trans (h : Extends t u) (h' : Extends u w) : Extends t w := by
  refine ⟨h.length.trans h'.length, h.mark.trans h'.mark, fun id hid => h'.loaded id (h.loaded id hid), fun id i hi => ?_⟩
  have hu := h.child id i hi
  rw [h'.child id i (by rwa [hu]), hu]

end Extends

theorem node_modify (nodes : List UsageNode) (f : UsageNode → UsageNode) (id j : Nat) (mark : Bool) :
    (CellUsageTree.mk mark (nodes.modify id f)).node j =
      if id = j ∧ j < nodes.length then f ((CellUsageTree.mk mark nodes).node j) else (CellUsageTree.mk mark nodes).node j := by
  simp only [node, List.getD_eq_getElem?_getD, List.getElem?_modify]
  by_cases hj : j < nodes.length
  · by_cases hid : id = j <;> simp [hj, hid]
  · simp [hj]

theorem extends_onLoad (t : CellUsageTree) (id : Nat) : Extends t (t.onLoad id) := by
  have hnode : ∀ j, (t.onLoad id).node j =
      if id = j ∧ j < t.nodes.length then { t.node j with isLoaded := true } else t.node j := fun j =>
    node_modify t.nodes _ id j t.useMark
  refine ⟨by simp [onLoad], rfl, fun j hj => ?_, fun j i _ => ?_⟩
  · rw [hnode]
    split
    · rfl
    · exact hj
  · rw [getChild, getChild, hnode]
    split <;> rfl

theorem isLoaded_onLoad {t : CellUsageTree} {id : Nat} (h : id < t.nodes.length) : ((t.onLoad id).node id).isLoaded = true := by
  rw [onLoad, node_modify, if_pos ⟨rfl, h⟩]

/-- Every node has room for the children of a cell, and its children are nodes. -/
structure WellFormed (t : CellUsageTree) : Prop where
  size : 2 ≤ t.nodes.length
  width : ∀ n ∈ t.nodes, n.children.length = maxRefs
  bound : ∀ n ∈ t.nodes, ∀ child ∈ n.children, child < t.nodes.length

theorem wellFormed_init : WellFormed {} := ⟨by decide, by decide, by decide⟩

theorem mem_nodes {t : CellUsageTree} {id : Nat} (h : id < t.nodes.length) : t.node id ∈ t.nodes := by
  rw [node, List.getD_eq_getElem?_getD, List.getElem?_eq_getElem h]
  exact List.getElem_mem h

/-- There is nothing behind the nodes. -/
theorem node_of_ge {t : CellUsageTree} {id : Nat} (h : t.nodes.length ≤ id) : t.node id = {} := by
  rw [node, List.getD_eq_getElem?_getD, List.getElem?_eq_none h]
  rfl

theorem getChild_of_ge {t : CellUsageTree} {id : Nat} (h : t.nodes.length ≤ id) (i : Nat) : t.getChild id i = 0 := by
  rw [getChild, node_of_ge h, List.getD_eq_getElem?_getD]
  cases hi : ({} : UsageNode).children[i]? with
  | none => rfl
  | some child => exact List.eq_of_mem_replicate (List.mem_of_getElem? hi)

namespace WellFormed

variable {t : CellUsageTree}

theorem onLoad (h : WellFormed t) (id : Nat) : WellFormed (t.onLoad id) := by
  have hmem : ∀ n ∈ (t.onLoad id).nodes, ∃ n' ∈ t.nodes, n.children = n'.children := by
    intro n hn
    obtain ⟨k, hk, rfl⟩ := List.mem_iff_getElem.1 hn
    simp only [CellUsageTree.onLoad, List.length_modify] at hk
    refine ⟨t.nodes[k], List.getElem_mem hk, ?_⟩
    simp only [CellUsageTree.onLoad, List.getElem_modify]
    split <;> rfl
  have hlen : (t.onLoad id).nodes.length = t.nodes.length := List.length_modify ..
  refine ⟨hlen ▸ h.size, fun n hn => ?_, fun n hn child hc => ?_⟩
  · obtain ⟨n', hn', heq⟩ := hmem n hn
    rw [heq, h.width n' hn']
  · obtain ⟨n', hn', heq⟩ := hmem n hn
    rw [hlen]
    exact h.bound n' hn' child (heq ▸ hc)

theorem getChild_lt (h : WellFormed t) (id i : Nat) : t.getChild id i < t.nodes.length := by
  have hpos : 0 < t.nodes.length := Nat.lt_of_lt_of_le Nat.two_pos h.size
  by_cases hid : id < t.nodes.length
  · rw [getChild, List.getD_eq_getElem?_getD]
    cases hi : (t.node id).children[i]? with
    | none => exact hpos
    | some child => exact h.bound _ (mem_nodes hid) child (List.mem_of_getElem? hi)
  · rw [getChild_of_ge (Nat.le_of_not_lt hid)]
    exact hpos

end WellFormed

/-- A child is found again, or made. -/
theorem createChild_spec {t : CellUsageTree} (h : WellFormed t) {id i : Nat} (hid : id < t.nodes.length) (hi : i < maxRefs) :
    WellFormed (t.createChild id i).1 ∧ Extends t (t.createChild id i).1 ∧ (t.createChild id i).2 ≠ 0 ∧
      (t.createChild id i).1.getChild id i = (t.createChild id i).2 := by
  unfold createChild
  split
  · next hchild => exact ⟨h, .refl t, hchild, rfl⟩
  next hnone =>
  have hzero : t.getChild id i = 0 := by simpa using hnone
  have hsize := h.size
  -- the new node is put at the end, and its number into the place of the child
  let nodes := t.nodes ++ [{ parent := id }]
  let f : UsageNode → UsageNode := fun n => { n with children := n.children.set i t.nodes.length }
  change WellFormed ⟨t.useMark, nodes.modify id f⟩ ∧ Extends t ⟨t.useMark, nodes.modify id f⟩ ∧ t.nodes.length ≠ 0 ∧
    CellUsageTree.getChild ⟨t.useMark, nodes.modify id f⟩ id i = t.nodes.length
  have hlen : nodes.length = t.nodes.length + 1 := by simp [nodes]
  have hold : ∀ j < t.nodes.length, (CellUsageTree.mk t.useMark nodes).node j = t.node j := by
    intro j hj
    simp [node, nodes, List.getD_eq_getElem?_getD, List.getElem?_append_left hj]
  have hnode : ∀ j, (CellUsageTree.mk t.useMark (nodes.modify id f)).node j =
      if id = j ∧ j < nodes.length then f ((CellUsageTree.mk t.useMark nodes).node j)
      else (CellUsageTree.mk t.useMark nodes).node j := fun j => node_modify nodes f id j t.useMark
  have hwidth : i < (t.node id).children.length := by rwa [h.width _ (mem_nodes hid)]
  have hmem : ∀ n ∈ nodes, n.children.length = maxRefs ∧ ∀ child ∈ n.children, child < t.nodes.length := by
    intro n hn
    rcases List.mem_append.1 hn with hn | hn
    · exact ⟨h.width n hn, h.bound n hn⟩
    · obtain rfl := List.mem_singleton.1 hn
      refine ⟨by simp, fun child hc => ?_⟩
      obtain rfl := List.eq_of_mem_replicate hc
      omega
  have hmodify : ∀ n ∈ nodes.modify id f, n.children.length = maxRefs ∧ ∀ child ∈ n.children, child < nodes.length := by
    intro n hn
    obtain ⟨k, hk, rfl⟩ := List.mem_iff_getElem.1 hn
    rw [List.length_modify] at hk
    obtain ⟨hw, hb⟩ := hmem nodes[k] (List.getElem_mem hk)
    rw [List.getElem_modify, hlen]
    split
    · refine ⟨by simpa [f] using hw, fun child hc => ?_⟩
      rcases List.mem_or_eq_of_mem_set hc with hc | rfl
      · exact (hb child hc).trans (Nat.lt_succ_self _)
      · exact Nat.lt_succ_self _
    · exact ⟨hw, fun child hc => (hb child hc).trans (Nat.lt_succ_self _)⟩
  refine ⟨⟨?_, fun n hn => (hmodify n hn).1, fun n hn child hc => ?_⟩, ⟨?_, rfl, fun j hj => ?_, fun j k hjk => ?_⟩, by omega, ?_⟩
  · rw [List.length_modify, hlen]
    omega
  · rw [List.length_modify]
    exact (hmodify n hn).2 child hc
  · rw [List.length_modify, hlen]
    exact Nat.le_succ _
  · have hj' : j < t.nodes.length := by
      by_contra hge
      rw [node_of_ge (Nat.le_of_not_lt hge)] at hj
      cases hj
    rw [hnode, hold j hj']
    split <;> exact hj
  · have hj' : j < t.nodes.length := by
      by_contra hge
      exact hjk (getChild_of_ge (Nat.le_of_not_lt hge) k)
    rw [getChild, hnode, hold j hj']
    split
    · next hid' =>
      obtain ⟨rfl, -⟩ := hid'
      have hne : i ≠ k := by
        rintro rfl
        exact hjk hzero
      simp only [f, List.getD_eq_getElem?_getD, List.getElem?_set_ne hne]
      rfl
    · rfl
  · rw [getChild, hnode, if_pos ⟨rfl, by omega⟩, hold id hid]
    simp only [f, List.getD_eq_getElem?_getD, List.getElem?_set_self hwidth]
    rfl

end CellUsageTree

/-! ## Visited cells -/

/-- A cell of the tree at a node it was reached through. -/
inductive Located (tree : CellUsageTree) (root : Cell) : Cell → Nat → Prop
  | root : Located tree root root CellUsageTree.rootId
  | child {y x : Cell} {m i : Nat} : Located tree root y m → (tree.node m).isLoaded = true → y.refs[i]? = some x →
    tree.getChild m i ≠ 0 → Located tree root x (tree.getChild m i)

theorem Located.extends {t u : CellUsageTree} {root x : Cell} {n : Nat} (h : Located t root x n) (htu : t.Extends u) :
    Located u root x n := by
  induction h with
  | root => exact .root
  | @child y x m i _ hm hx hne ih =>
    have hchild := htu.child m i hne
    rw [← hchild]
    exact .child ih (htu.loaded m hm) hx (by rwa [hchild])

namespace MerkleProof

variable [Digest] {tree : CellUsageTree} {root x : Cell} {n : Nat}

theorem mem_dfsUsageRefs {rs : List Cell} {node j k : Nat} (hx : rs[k]? = some x) {h : Bits256}
    (hh : h ∈ dfsUsageTree tree x (tree.getChild node (j + k))) : h ∈ dfsUsageRefs tree rs node j := by
  induction rs generalizing j k with
  | nil => cases hx
  | cons r rs ih =>
    rw [dfsUsageRefs, List.mem_append]
    cases k with
    | zero =>
      obtain rfl : r = x := by simpa using hx
      exact .inl hh
    | succ k =>
      rw [List.getElem?_cons_succ] at hx
      exact .inr (ih hx (by rwa [Nat.add_right_comm, Nat.add_assoc]))

/-- What is visited from a located cell on is visited from the root on. -/
theorem mem_of_located (hmark : tree.useMark = false) (hloc : Located tree root x n) {h : Bits256}
    (hh : h ∈ dfsUsageTree tree x n) : h ∈ dfsUsageTree tree root CellUsageTree.rootId := by
  induction hloc with
  | root => exact hh
  | @child y x m i _ hm hx hne ih =>
    apply ih
    obtain ⟨special, data, refs⟩ := y
    have hloaded : tree.isLoaded m = true := by rw [CellUsageTree.isLoaded, hmark, if_neg (by decide), hm]
    rw [dfsUsageTree, if_pos hloaded]
    exact List.mem_cons_of_mem _ (mem_dfsUsageRefs (j := 0) hx (by rwa [Nat.zero_add]))

/-- A located cell that was loaded is visited. -/
theorem visited_of_located (hmark : tree.useMark = false) (hloc : Located tree root x n)
    (hn : (tree.node n).isLoaded = true) : x.getHash maxLevel ∈ dfsUsageTree tree root CellUsageTree.rootId := by
  apply mem_of_located hmark hloc
  obtain ⟨special, data, refs⟩ := x
  have hloaded : tree.isLoaded n = true := by rw [CellUsageTree.isLoaded, hmark, if_neg (by decide), hn]
  rw [dfsUsageTree, if_pos hloaded]
  exact List.mem_cons_self

end MerkleProof

/-! ## Running through a usage tree -/

/-- A reference through the tree to a located cell. -/
structure UsageCell.Good [Digest] (t : CellUsageTree) (root : Cell) (r : UsageCell) : Prop where
  located : Located t root r.cell r.node
  ne : r.node ≠ 0
  lt : r.node < t.nodes.length
  valid : Cell.Valid r.cell

namespace UsageCell

variable [Digest] {t u : CellUsageTree} {root : Cell}

theorem Good.extends {r : UsageCell} (h : r.Good t root) (htu : t.Extends u) : r.Good u root :=
  ⟨h.located.extends htu, h.ne, h.lt.trans_le htu.length, h.valid⟩

/-- The references of a loaded cell get nodes of their own. -/
theorem prefetchRefs_spec {y : Cell} {m : Nat} (hy : Located t root y m) (hm : m ≠ 0) (hmlt : m < t.nodes.length)
    (hwf : t.WellFormed) (hloaded : (t.node m).isLoaded = true) (cs : List Cell) (i : Nat) (hcs : y.refs.drop i = cs)
    (hrefs : y.refs.length ≤ maxRefs) (hvalid : ∀ c ∈ y.refs, Cell.Valid c) :
    (prefetchRefs m cs i t).2.WellFormed ∧ t.Extends (prefetchRefs m cs i t).2 ∧
      (prefetchRefs m cs i t).1.map (·.cell) = cs ∧
      ∀ r ∈ (prefetchRefs m cs i t).1, r.Good (prefetchRefs m cs i t).2 root := by
  induction cs generalizing i t with
  | nil => exact ⟨hwf, .refl t, rfl, fun r hr => nomatch hr⟩
  | cons c cs ih =>
    have hi : y.refs[i]? = some c := by
      rw [← List.head?_drop, hcs]
      rfl
    have hlt : i < y.refs.length := (List.getElem?_eq_some_iff.1 hi).1
    obtain ⟨hwf1, hext1, hne, hchild⟩ := CellUsageTree.createChild_spec hwf hmlt (hlt.trans_le hrefs)
    have hdrop : y.refs.drop (i + 1) = cs := by
      rw [← List.drop_drop, hcs]
      rfl
    obtain ⟨hwf2, hext2, hcells, hgood⟩ := ih (hy.extends hext1) (hmlt.trans_le hext1.length) hwf1
      (hext1.loaded m hloaded) (i + 1) hdrop
    rw [prefetchRefs, if_neg hm]
    refine ⟨hwf2, hext1.trans hext2, congrArg (c :: ·) hcells, ?_⟩
    intro r hr
    rcases List.mem_cons.1 hr with rfl | hr
    · apply Good.extends _ hext2
      refine ⟨?_, hne, ?_, hvalid c (List.mem_of_getElem? hi)⟩
      · rw [← hchild]
        exact .child (hy.extends hext1) (hext1.loaded m hloaded) hi (by rwa [hchild])
      · rw [← hchild]
        exact hwf1.getChild_lt m i
    · exact hgood r hr

/-- Loading a cell through the tree and fetching its references. -/
theorem load_spec {r : UsageCell} (h : r.Good t root) (hwf : t.WellFormed) :
    let res := prefetchRefs r.node r.cell.refs 0 (r.onLoad t)
    res.2.WellFormed ∧ t.Extends res.2 ∧ (res.2.node r.node).isLoaded = true ∧ res.1.map (·.cell) = r.cell.refs ∧
      ∀ r' ∈ res.1, r'.Good res.2 root := by
  have honLoad : r.onLoad t = t.onLoad r.node := if_neg h.ne
  have hext := CellUsageTree.extends_onLoad t r.node
  have hloaded := CellUsageTree.isLoaded_onLoad h.lt
  dsimp only
  rw [honLoad]
  obtain ⟨hwf', hext', hcells, hgood⟩ := prefetchRefs_spec (h.located.extends hext) h.ne (h.lt.trans_le hext.length)
    (hwf.onLoad r.node) hloaded r.cell.refs 0 rfl h.valid.created.refs fun c hc => h.valid.of_mem_refs hc
  exact ⟨hwf', hext.trans hext', hext'.loaded _ hloaded, hcells, hgood⟩

end UsageCell

namespace Reader

variable {α : Type} [Digest] {root : Cell}

theorem ref_of_usageRef {refs : List UsageCell} {i : Nat} {r : UsageCell} (h : usageRef refs i = .ok r) :
    r ∈ refs ∧ ref (refs.map fun r => ⟨r.cell, .none⟩) i = .ok ⟨r.cell, .none⟩ := by
  unfold usageRef at h
  split at h
  · next r' hr =>
    cases h
    exact ⟨List.mem_of_getElem? hr, by simp [ref, hr]⟩
  · cases h

/-- Running through a tree of usage changes nothing for a program, and every cell it loads is visited in the end. -/
def Traced (root : Cell) (rd : Reader α) : Prop :=
  ∀ (refs : List UsageCell) (t u : CellUsageTree) (a : α), t.WellFormed → t.useMark = false → (∀ r ∈ refs, r.Good t root) →
    rd.runUsage refs t = .ok (a, u) →
      t.Extends u ∧ rd.run (refs.map fun r => ⟨r.cell, .none⟩) = .ok a ∧
        rd.Within (fun c => c.getHash maxLevel ∈ MerkleProof.dfsUsageTree u root CellUsageTree.rootId)
          (refs.map fun r => ⟨r.cell, .none⟩)

/-- One load: the program goes on traced from the slice of the cell. -/
theorem Traced.load {rd : Reader α} (h : Traced root rd) {refs : List UsageCell} {t u : CellUsageTree} {a : α}
    {r : UsageCell} (hwf : t.WellFormed) (hmark : t.useMark = false) (hgood : ∀ r ∈ refs, r.Good t root) (hr : r ∈ refs)
    (hrun : rd.runUsage (refs ++ (UsageCell.prefetchRefs r.node r.cell.refs 0 (r.onLoad t)).1)
      (UsageCell.prefetchRefs r.node r.cell.refs 0 (r.onLoad t)).2 = .ok (a, u)) :
    t.Extends u ∧
      rd.run ((refs.map fun r => ⟨r.cell, .none⟩) ++ (CellSlice.ofCell ⟨r.cell, .none⟩).prefetchRefs) = .ok a ∧
      r.cell.getHash maxLevel ∈ MerkleProof.dfsUsageTree u root CellUsageTree.rootId ∧
      rd.Within (fun c => c.getHash maxLevel ∈ MerkleProof.dfsUsageTree u root CellUsageTree.rootId)
        ((refs.map fun r => ⟨r.cell, .none⟩) ++ (CellSlice.ofCell ⟨r.cell, .none⟩).prefetchRefs) := by
  obtain ⟨hwf', hext, hloaded, hcells, hgood'⟩ := UsageCell.load_spec (hgood r hr) hwf
  generalize UsageCell.prefetchRefs r.node r.cell.refs 0 (r.onLoad t) = res at *
  have hall : ∀ x ∈ refs ++ res.1, x.Good res.2 root := by
    intro x hx
    rcases List.mem_append.1 hx with hx | hx
    · exact (hgood x hx).extends hext
    · exact hgood' x hx
  obtain ⟨hext', hrun', hwithin⟩ := h _ _ _ _ hwf' (hext.mark ▸ hmark) hall hrun
  have hrefs : (refs ++ res.1).map (fun r => (⟨r.cell, .none⟩ : CellRef)) =
      (refs.map fun r => ⟨r.cell, .none⟩) ++ (CellSlice.ofCell ⟨r.cell, .none⟩).prefetchRefs := by
    rw [List.map_append, CellRef.prefetchRefs_plain (hgood r hr).valid, ← hcells, List.map_map]
    rfl
  rw [hrefs] at hrun' hwithin
  have hextu := hext.trans hext'
  exact ⟨hextu, hrun', MerkleProof.visited_of_located (hextu.mark ▸ hmark) ((hgood r hr).located.extends hextu)
    (hext'.loaded _ hloaded), hwithin⟩

theorem traced (rd : Reader α) : Traced root rd := by
  induction rd with
  | done b =>
    intro refs t u a _ _ _ hrun
    cases hrun
    exact ⟨.refl t, rfl, trivial⟩
  | error e =>
    intro refs t u a _ _ _ hrun
    cases hrun
  | load i next ih | loadNoVm i next ih =>
    intro refs t u a hwf hmark hgood hrun
    obtain ⟨r, hr, hrun⟩ := bind_ok hrun
    obtain ⟨cs, hload, hrun⟩ := bind_ok hrun
    obtain rfl : cs = .ofCell ⟨r.cell, .none⟩ := by
      first
      | exact (loadCellSlice_ok hload).2
      | exact loadNoVm_ok hload
    obtain ⟨hmem, href⟩ := ref_of_usageRef hr
    obtain ⟨hext, hrun', hvisited, hwithin⟩ := Traced.load (ih _) hwf hmark hgood hmem hrun
    refine ⟨hext, ?_, fun x cs hx hcs => ?_⟩
    · rw [run, href]
      simpa only [bind, Except.bind, hload] using hrun'
    · rw [href] at hx
      cases hx
      rw [hload] at hcs
      cases hcs
      exact ⟨hvisited, hwithin⟩
  | hash i next ih =>
    intro refs t u a hwf hmark hgood hrun
    obtain ⟨r, hr, hrun⟩ := bind_ok hrun
    obtain ⟨hmem, href⟩ := ref_of_usageRef hr
    obtain ⟨hext, hrun', hwithin⟩ := ih _ _ _ _ _ hwf hmark hgood hrun
    refine ⟨hext, ?_, fun x hx => ?_⟩
    · rw [run, href]
      exact hrun'
    · rw [href] at hx
      cases hx
      exact hwithin

end Reader

/-! ## Proofs of what was read -/

namespace MerkleProof

variable {α : Type} [Digest]

/-- The proof of what a program has read through a usage tree can be made, shows a tree with the hash of the one that
was read, and the program reads the same from it. -/
theorem run_extracted {c : Cell} (hc : Cell.Whole 0 c) (hn : Nested 2 0 c) (hcol : Cell.CollisionFree c c)
    (hdepth : c.getDepth 0 < maxDepth) (rd : Reader α) {a : α} {tree : CellUsageTree}
    (hrun : rd.runUsage [⟨c, CellUsageTree.rootId⟩] {} = .ok (a, tree)) :
    ∃ proof root, extractProof tree c = .ok (some proof) ∧ virtualize proof = .ok (some root) ∧
      root.reprHash = (⟨c, .none⟩ : CellRef).reprHash ∧ rd.run [root] = .ok a ∧ rd.run [⟨c, .none⟩] = .ok a := by
  have hn7 : Nested 7 0 c := hn.mono (by decide)
  have hgood : ∀ r ∈ [(⟨c, CellUsageTree.rootId⟩ : UsageCell)], r.Good {} c := by
    intro r hr
    obtain rfl := List.mem_singleton.1 hr
    exact ⟨.root, Nat.one_ne_zero, Nat.lt_succ_self 1, hc.valid⟩
  obtain ⟨-, hplain, hwithin⟩ := Reader.traced rd _ _ _ _ CellUsageTree.wellFormed_init rfl hgood hrun
  obtain ⟨proof, hproof⟩ := generate_total (notVisited tree c) hc hn hcol hdepth
  obtain ⟨-, raw, -, -, -, hvirt⟩ := generate_ok hc hn7 hcol hproof
  refine ⟨proof, _, hproof, hvirt, reprHash_of_generate hc hn7 hcol hproof hvirt, ?_, hplain⟩
  refine run_generated hc hn7 hcol hproof hvirt rd hplain (hwithin.imp fun x hx => ?_)
  rw [notVisited, Bool.not_eq_false']
  exact List.contains_iff_mem.2 hx

end MerkleProof

namespace MerkleProof.Sample

open Cell.Sample

theorem run_extracted_second : ∃ u proof root, @extractProof digest u tree = .ok (some proof) ∧
    @virtualize digest proof = .ok (some root) ∧ @CellRef.reprHash digest root = @CellRef.reprHash digest ⟨tree, .none⟩ ∧
      @Reader.run _ digest readSecond [root] = .ok [true, false, true] ∧
      @Reader.run _ digest readSecond [⟨tree, .none⟩] = .ok [true, false, true] := by
  have hok : (@Reader.runUsage _ digest readSecond [⟨tree, CellUsageTree.rootId⟩] {}).map (·.1) =
      .ok [true, false, true] := by
    decide +kernel
  cases hrun : @Reader.runUsage _ digest readSecond [⟨tree, CellUsageTree.rootId⟩] {} with
  | error e =>
    rw [hrun] at hok
    cases hok
  | ok x =>
    obtain ⟨a, u⟩ := x
    rw [hrun] at hok
    cases hok
    exact ⟨u, @run_extracted _ digest tree whole_tree (.of_ordinary ordinary_tree (by decide)) collisionFree_tree
      (by decide +kernel) readSecond _ u hrun⟩

end MerkleProof.Sample

end TonWallet.Vm
