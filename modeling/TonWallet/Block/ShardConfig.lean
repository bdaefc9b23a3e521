/-
The shards of each workchain (`block::ShardConfig`): a binary tree of shard descriptions. Looking one shard up, and
going through all of them.
-/
import TonWallet.Block.McShardHash
import TonWallet.Block.ShardPrefix
import TonWallet.Block.ValidatorSet
import TonWallet.Lib.BinTree
import Mathlib.Data.List.Find

namespace TonWallet.Block

open Lib TonWallet.Td TonWallet.Ton TonWallet.Vm

/-- `Dictionary::extract_value_ref`. -/
def extractValueRef : Option Slice → Result (Option Cell)
  | none => .ok none
  | some cs =>
    if cs.bits = [] ∧ cs.refs.length = 1 then .ok cs.refs.head?
    else .error (.vmError "dictionary value does not consist of exactly one reference")

structure ShardConfig where
  mcShardHash : Option McShardHash := none
  shardHashesDict : Option (Option Cell)

/-- The key of a workchain: `BitArray<32>{workchain}`. -/
def workchainKey (workchain : Int32) : List Bool := natToBits 32 workchain.toBitVec.toNat

section

variable [Digest]

namespace ShardConfig

/-- `CellSlice::load(NoVmOrd(), root)`; a special cell is not loaded. -/
def loadNoVmOrd (root : Cell) : Option CellSlice := if root.special then none else some (.ofCell ⟨root, .none⟩)

/-- The loop of `get_shard_hash_raw_from`: the description, the shard it is found for and its leaf. -/
def descendFrom (id : ShardIdFull) (exact : Bool) :
    Nat → Cell → UInt64 → UInt64 → Option (CellSlice × ShardIdFull × Cell)
  | len, root, z, m =>
    match (loadNoVmOrd root).bind (Fetch.fetchUint 1) with
    | none => none
    | some (t, cs) =>
      if t = 0 then
        if len ≠ 0 ∧ exact then none else some (cs, ⟨id.workchain, (id.shard ||| m) - (m >>> 1)⟩, root)
      else match len with
        | 0 => none
        | len + 1 =>
          if cs.sizeExt ≠ 0x20000 then none
          else match cs.refs[(z >>> 63).toNat]? with
            | none => none
            | some child => descendFrom id exact len child (z <<< 1) (m >>> 1)

def getShardHashRawFrom (dict : Option Cell) (id : ShardIdFull) (exact : Bool) :
    Result (Option (CellSlice × ShardIdFull × Cell)) := do
  if id.isMasterchain ∨ id.workchain = workchainInvalid then return none
  let some root ← extractValueRef (← lookupIn dict (workchainKey id.workchain)) | return none
  return descendFrom id exact (shardPfxLen id.shard) root id.shard (UInt64.ofNat (2 ^ 64 - 1))

variable (c : ShardConfig)

def getShardHashRaw (id : ShardIdFull) (exact : Bool) : Result (Option (CellSlice × ShardIdFull × Cell)) :=
  match c.shardHashesDict with
  | none => .ok none
  | some dict => getShardHashRawFrom dict id exact

def getShardHash (id : ShardIdFull) (exact : Bool) : Result (Option McShardHash) := do
  if id.isMasterchain then return if !exact ∨ id.shard = shardIdAll then c.mcShardHash else none
  let some (cs, trueId, _) ← c.getShardHashRaw id exact | return none
  McShardHash.unpack cs trueId

end ShardConfig

variable {σ : Type}

/-- `process_workchain_shard_hashes`, with a state that `func` changes: what it returns and the branch after it. -/
def processWorkchainShardHashes (func : σ → McShardHash → Int32 × McShardHash × σ) :
    Cell → ShardIdFull → σ → Result (Int32 × Cell × σ)
  | .mk special data refs, shard, s => do
    let branch := Cell.mk special data refs
    let cs ← loadCellSlice ⟨branch, .none⟩
    match data, refs with
    | true :: rest, [left, right] =>
      if shard.shard &&& 1 ≠ 0 ∨ rest ≠ [] then return (-1, branch, s)
      let leftShard ← shardChild shard.shard true
      let (r1, left, s) ← processWorkchainShardHashes func left { shard with shard := leftShard } s
      if r1 < 0 then return (r1, branch, s)
      let rightShard ← shardChild shard.shard false
      let (r2, right, s) ← processWorkchainShardHashes func right { shard with shard := rightShard } s
      let r := r1 ||| r2
      if r ≤ 0 then return (r, branch, s)
      return (r, ← CellBuilder.finalize ⟨[true], [left, right]⟩, s)
    | false :: rest, _ =>
      let some shardInfo ← McShardHash.unpack { cs with bits := rest } shard | return (-1, branch, s)
      let (r, shardInfo, s) := func s shardInfo
      if r ≤ 0 then return (r, branch, s)
      match ← shardInfo.pack ⟨[false], []⟩ with
      | some cb => return (r, ← cb.finalize, s)
      | none => return (-1, branch, s)
    | _, _ => return (-1, branch, s)

/-- The function that writes down what it is called with and changes nothing. -/
def collect (hashes : List McShardHash) (h : McShardHash) : Int32 × McShardHash × List McShardHash :=
  (0, h, hashes ++ [h])

/-- The descriptions of a workchain, in the order in which they are gone through. -/
def ShardConfig.enumerate (c : ShardConfig) (workchain : Int32) : Result (Int32 × List McShardHash) := do
  let some dict := c.shardHashesDict | return (0, [])
  let some root ← extractValueRef (← lookupIn dict (workchainKey workchain)) | return (0, [])
  let (r, _, hashes) ← processWorkchainShardHashes collect root ⟨workchain, shardIdAll⟩ []
  return (r, hashes)

/-! ## Trees of descriptions -/

omit [Digest] in
/-- A slice behind the tag of a leaf. -/
def leafSlice (s : Slice) : CellSlice := ⟨.none, .mk false (false :: s.bits) s.refs, s.bits, s.refs⟩

omit [Digest] in
/-- A tree stored as a `BinTree`. -/
inductive StoresTree : Cell → BinTree Slice → Prop
  | leaf (s : Slice) : StoresTree (.mk false (false :: s.bits) s.refs) (.leaf s)
  | fork {cl cr : Cell} {l r : BinTree Slice} (hl : StoresTree cl l) (hr : StoresTree cr r) :
    StoresTree (.mk false [true] [cl, cr]) (.fork l r)

variable {workchain : Int32} {c : Cell} {t : BinTree Slice} {q : List Bool} {descr : List Bool → McShardHash}

/-- Each leaf of a tree at the path `q` is unpacked. -/
def Unpacks (workchain : Int32) (q : List Bool) (t : BinTree Slice) (descr : List Bool → McShardHash) : Prop :=
  ∀ x ∈ t.leaves, McShardHash.unpack (leafSlice x.2) ⟨workchain, shardOf (q ++ x.1)⟩ = .ok (some (descr (q ++ x.1)))

theorem Unpacks.left {l r : BinTree Slice} (h : Unpacks workchain q (.fork l r) descr) :
    Unpacks workchain (q ++ [false]) l descr := by
  intro x hx
  have hside := h (false :: x.1, x.2) (List.mem_append_left _ (List.mem_map_of_mem hx))
  rwa [List.append_assoc]

theorem Unpacks.right {l r : BinTree Slice} (h : Unpacks workchain q (.fork l r) descr) :
    Unpacks workchain (q ++ [true]) r descr := by
  intro x hx
  have hside := h (true :: x.1, x.2) (List.mem_append_right _ (List.mem_map_of_mem hx))
  rwa [List.append_assoc]

/-- The leaves are gone through from left to right. -/
theorem process_collect (hc : StoresTree c t) (hdepth : q.length + t.depth ≤ 63) (hu : Unpacks workchain q t descr)
    (hashes : List McShardHash) :
    processWorkchainShardHashes collect c ⟨workchain, shardOf q⟩ hashes =
      .ok (0, c, hashes ++ t.leaves.map fun x => descr (q ++ x.1)) := by
  induction hc generalizing q hashes with
  | leaf s =>
    have hleaf := hu ([], s) (List.mem_singleton.2 rfl)
    rw [List.append_nil] at hleaf
    have hload : loadCellSlice ⟨.mk false (false :: s.bits) s.refs, .none⟩ =
        .ok (.ofCell ⟨.mk false (false :: s.bits) s.refs, .none⟩) := rfl
    rw [processWorkchainShardHashes, hload]
    change (McShardHash.unpack (leafSlice s) ⟨workchain, shardOf q⟩ >>= _) = _
    rw [hleaf]
    change Except.ok (0, _, hashes ++ [descr q]) = _
    rw [BinTree.leaves, List.map_singleton, List.append_nil]
  | @fork cl cr l r hl hr ihl ihr =>
    rw [BinTree.depth] at hdepth
    have hload : loadCellSlice ⟨.mk false [true] [cl, cr], .none⟩ =
        .ok (.ofCell ⟨.mk false [true] [cl, cr], .none⟩) := rfl
    have hq : q.length ≤ 62 := by omega
    have hleft := ihl (q := q ++ [false]) (by rw [List.length_append, List.length_singleton]; omega) hu.left hashes
    have hright := ihr (q := q ++ [true]) (by rw [List.length_append, List.length_singleton]; omega) hu.right
      (hashes ++ l.leaves.map fun x => descr (q ++ [false] ++ x.1))
    have hleftShard : shardChild (shardOf q) true = .ok (shardOf (q ++ [false])) := shardChild_shardOf hq true
    have hrightShard : shardChild (shardOf q) false = .ok (shardOf (q ++ [true])) := shardChild_shardOf hq false
    have hsplit : ¬(shardOf q &&& 1 ≠ 0 ∨ ([] : List Bool) ≠ []) := by
      rw [and_one_shardOf hq]
      simp
    rw [processWorkchainShardHashes, hload]
    refine (if_neg hsplit).trans ?_
    rw [hleftShard]
    change (processWorkchainShardHashes collect cl ⟨workchain, shardOf (q ++ [false])⟩ hashes >>= _) = _
    rw [hleft]
    change (shardChild (shardOf q) false >>= _) = _
    rw [hrightShard]
    change (processWorkchainShardHashes collect cr ⟨workchain, shardOf (q ++ [true])⟩
      (hashes ++ l.leaves.map fun x => descr (q ++ [false] ++ x.1)) >>= _) = _
    rw [hright]
    change Except.ok (0, _, _ ++ _) = _
    simp only [BinTree.leaves, List.map_append, List.map_map, Function.comp_def, List.append_assoc,
      List.singleton_append]

omit [Digest] in
theorem descendFrom_leaf (id : ShardIdFull) (exact : Bool) (len : Nat) (s : Slice) (z m : UInt64) :
    ShardConfig.descendFrom id exact len (.mk false (false :: s.bits) s.refs) z m =
      if len ≠ 0 ∧ exact then none
      else some (leafSlice s, ⟨id.workchain, (id.shard ||| m) - (m >>> 1)⟩, .mk false (false :: s.bits) s.refs) := by
  have hfetch : (ShardConfig.loadNoVmOrd (.mk false (false :: s.bits) s.refs)).bind (Fetch.fetchUint 1) =
      some (0, leafSlice s) := rfl
  cases len with
  | zero =>
    rw [ShardConfig.descendFrom, hfetch]
    simp only [if_true]
  | succ len =>
    rw [ShardConfig.descendFrom, hfetch]
    simp only [if_true]

omit [Digest] in
theorem descendFrom_fork (id : ShardIdFull) (exact : Bool) (len : Nat) (cl cr : Cell) (z m : UInt64) :
    ShardConfig.descendFrom id exact (len + 1) (.mk false [true] [cl, cr]) z m =
      [cl, cr][(z >>> 63).toNat]?.bind fun child => ShardConfig.descendFrom id exact len child (z <<< 1) (m >>> 1) := by
  have hfetch : (ShardConfig.loadNoVmOrd (.mk false [true] [cl, cr])).bind (Fetch.fetchUint 1) =
      some (1, ⟨.none, .mk false [true] [cl, cr], [], [cl, cr]⟩) := rfl
  have hsize : ¬(CellSlice.sizeExt ⟨.none, .mk false [true] [cl, cr], [], [cl, cr]⟩ ≠ 0x20000) := by
    simp [CellSlice.sizeExt, CellSlice.size, CellSlice.sizeRefs]
  rw [ShardConfig.descendFrom, hfetch]
  simp only [one_ne_zero, if_false, if_neg hsize]
  cases [cl, cr][(z >>> 63).toNat]? <;> rfl

omit [Digest] in
/-- The search follows the path to a leaf. -/
theorem descendFrom_eq (hc : StoresTree c t) {id : ShardIdFull} {exact : Bool} {p rest : List Bool} {m : UInt64}
    (hp : p = q ++ rest) (hlen : p.length ≤ 63) (hid : id.shard = shardOf p) (hm : m.toNat = 2 ^ (64 - q.length) - 1) :
    (ShardConfig.descendFrom id exact rest.length c (shardOf rest) m).map (fun r => (r.1, r.2.1)) =
      (t.descend rest).bind fun x =>
        if exact ∧ x.1 ≠ rest then none else some (leafSlice x.2, ⟨id.workchain, shardOf (q ++ x.1)⟩) := by
  induction hc generalizing q rest m with
  | leaf s =>
    have htrue : (id.shard ||| m) - (m >>> 1) = shardOf q := by
      rw [hid]
      exact or_sub_eq_shardOf hlen (hp ▸ List.prefix_append q rest) hm
    have hexact : (rest.length ≠ 0 ∧ exact = true) ↔ (exact = true ∧ [] ≠ rest) := by
      rw [and_comm, ne_eq, List.length_eq_zero_iff, ne_comm]
    rw [descendFrom_leaf, BinTree.descend, Option.bind_some, List.append_nil]
    by_cases hstop : rest.length ≠ 0 ∧ exact = true
    · rw [if_pos (hexact.1 hstop)]
      rw [if_pos hstop]
      rfl
    · rw [if_neg (mt hexact.2 hstop)]
      rw [if_neg hstop, htrue]
      rfl
  | @fork cl cr l r hl hr ihl ihr =>
    have hlength := congrArg List.length hp
    rw [List.length_append] at hlength
    cases rest with
    | nil => rfl
    | cons b rest =>
      rw [List.length_cons] at hlength
      obtain ⟨hbit, hrest⟩ := shardOf_cons b (p := rest) (by omega)
      have hq : p = q ++ [b] ++ rest := by rw [hp, List.append_assoc, List.singleton_append]
      have hhalf : (m >>> 1).toNat = 2 ^ (64 - (q ++ [b]).length) - 1 := by
        rw [UInt64.toNat_shiftRight, hm, List.length_append, List.length_singleton]
        show _ >>> 1 = _
        rw [Nat.shiftRight_eq_div_pow, show 64 - q.length = 64 - (q.length + 1) + 1 by omega, pow_succ]
        have hpos := Nat.two_pow_pos (64 - (q.length + 1))
        omega
      have hchild : ShardConfig.descendFrom id exact (rest.length + 1) (.mk false [true] [cl, cr])
          (shardOf (b :: rest)) m =
            ShardConfig.descendFrom id exact rest.length (if b then cr else cl) (shardOf rest) (m >>> 1) := by
        rw [descendFrom_fork, hbit, hrest]
        cases b <;> rfl
      have hside (s : BinTree Slice) : ((s.descend rest).bind fun x => if exact ∧ x.1 ≠ rest then none
            else some (leafSlice x.2, (⟨id.workchain, shardOf (q ++ [b] ++ x.1)⟩ : ShardIdFull))) =
          ((s.descend rest).map fun x => (b :: x.1, x.2)).bind fun x => if exact ∧ x.1 ≠ b :: rest then none
            else some (leafSlice x.2, ⟨id.workchain, shardOf (q ++ x.1)⟩) := by
        rw [Option.bind_map]
        refine Option.bind_congr fun x _ => ?_
        simp only [Function.comp_apply, List.append_assoc, List.singleton_append, ne_eq, List.cons.injEq, true_and]
      rw [List.length_cons, hchild]
      cases b
      · rw [if_neg Bool.false_ne_true, ihl hq hhalf, BinTree.descend]
        exact hside l
      · rw [if_pos rfl, ihr hq hhalf, BinTree.descend]
        exact hside r

/-! ## Looking up and going through -/

namespace ShardConfig

/-- The dictionary `t` has a tree for each workchain but the masterchain, of at most 60 levels, whose leaves all are
shard descriptions. -/
structure WellFormed (c : ShardConfig) (t : Option (PrefixTree Slice)) (trees : Int32 → Option (BinTree Slice))
    (descr : Int32 → List Bool → McShardHash) : Prop where
  parses : ∃ dict, c.shardHashesDict = some dict ∧ Dict.Parses? False 32 t dict
  absent : ∀ workchain, trees workchain = none → PrefixTree.get? t (workchainKey workchain) = none
  present : ∀ workchain tree, trees workchain = some tree →
    ∃ root, PrefixTree.get? t (workchainKey workchain) = some ⟨[], [root]⟩ ∧ StoresTree root tree
  depth : ∀ workchain tree, trees workchain = some tree → tree.depth ≤ 60
  unpacks : ∀ workchain tree, trees workchain = some tree → Unpacks workchain [] tree (descr workchain)
  workchains : ∀ workchain, (trees workchain).isSome → workchain ≠ masterchainId ∧ workchain ≠ workchainInvalid

omit [Digest] in
/-- Whether a description is that of the shard, or of one that has the shard in it. -/
def isFor (exact : Bool) (shard : UInt64) (h : McShardHash) : Bool :=
  if exact then h.blk.id.shard == shard else shardIsAncestor h.blk.id.shard shard

end ShardConfig

/-- A description is that of the shard it is unpacked for. -/
theorem McShardHash.shard_of_unpack {cs : CellSlice} {id : ShardIdFull} {h : McShardHash}
    (hu : McShardHash.unpack cs id = .ok (some h)) : h.blk.id.workchain = id.workchain ∧ h.blk.id.shard = id.shard := by
  have hfsm (sh : McShardHash) (cs : CellSlice) (h : McShardHash) (hh : sh.withFsm cs = some h) : h.blk = sh.blk := by
    unfold McShardHash.withFsm at hh
    split at hh
    · cases hh
      rfl
    all_goals
      obtain ⟨r, -, rfl⟩ := Option.map_eq_some_iff.1 hh
      rfl
  unfold McShardHash.unpack at hu
  split at hu
  · obtain ⟨r, -, hu⟩ := bind_ok hu
    split at hu
    · split at hu
      · split at hu
        · have hblk := hfsm _ _ _ (Except.ok.inj hu)
          rw [hblk]
          exact ⟨rfl, rfl⟩
        · cases hu
      · cases hu
    · cases hu
  · cases hu

theorem lookupIn_parses {t : Option (PrefixTree Slice)} {dict : Option Cell} (h : Dict.Parses? False 32 t dict)
    {key : List Bool} (hkey : key.length = 32) : lookupIn dict key = .ok (PrefixTree.get? t key) := by
  cases t with
  | none =>
    obtain rfl : dict = none := h
    rfl
  | some t =>
    obtain ⟨c, rfl, hparses⟩ := h
    exact Dict.dictLookup_parses hparses hkey

namespace ShardConfig

variable {c : ShardConfig} {t : Option (PrefixTree Slice)} {trees : Int32 → Option (BinTree Slice)}
  {descr : Int32 → List Bool → McShardHash}

theorem WellFormed.lookup (h : c.WellFormed t trees descr) (workchain : Int32) : ∃ dict, c.shardHashesDict = some dict ∧
    lookupIn dict (workchainKey workchain) = .ok (PrefixTree.get? t (workchainKey workchain)) := by
  obtain ⟨dict, hdict, hparses⟩ := h.parses
  exact ⟨dict, hdict, lookupIn_parses hparses (length_natToBits _ _)⟩

/-- What goes through a workchain finds the leaves of its tree. -/
theorem enumerate_eq (h : c.WellFormed t trees descr) (workchain : Int32) :
    c.enumerate workchain =
      .ok (0, (trees workchain).elim [] fun tree => tree.leaves.map fun x => descr workchain x.1) := by
  obtain ⟨dict, hdict, hlookup⟩ := h.lookup workchain
  unfold enumerate
  rw [hdict]
  change (lookupIn dict (workchainKey workchain) >>= _) = _
  rw [hlookup]
  cases htree : trees workchain with
  | none =>
    rw [h.absent workchain htree]
    rfl
  | some tree =>
    obtain ⟨root, hroot, hstores⟩ := h.present workchain tree htree
    have hdepth := h.depth workchain tree htree
    have hprocess := process_collect (q := []) hstores (by rw [List.length_nil]; omega)
      (h.unpacks workchain tree htree) []
    rw [hroot]
    change (processWorkchainShardHashes collect root ⟨workchain, shardIdAll⟩ [] >>= _) = _
    have hall : shardOf [] = shardIdAll := by decide
    rw [hall] at hprocess
    rw [hprocess]
    rfl

/-- What is found of a shard other than the masterchain: the leaf of its prefix or one on the way to it. -/
theorem getShardHashRaw_eq (h : c.WellFormed t trees descr) {workchain : Int32} (hmc : workchain ≠ masterchainId)
    {p : List Bool} (hp : p.length ≤ 63) (exact : Bool) :
    ∃ r, c.getShardHashRaw ⟨workchain, shardOf p⟩ exact = .ok r ∧ r.map (fun r => (r.1, r.2.1)) =
      (trees workchain).bind fun tree => (tree.descend p).bind fun x =>
        if exact ∧ x.1 ≠ p then none else some (leafSlice x.2, ⟨workchain, shardOf x.1⟩) := by
  obtain ⟨dict, hdict, hlookup⟩ := h.lookup workchain
  have hnot : ShardIdFull.isMasterchain ⟨workchain, shardOf p⟩ = false := by
    simpa [ShardIdFull.isMasterchain] using hmc
  unfold getShardHashRaw
  rw [hdict]
  simp only
  unfold getShardHashRawFrom
  rw [hnot]
  by_cases hvalid : workchain = workchainInvalid
  · -- no tree is kept for what is no workchain
    have hnone : trees workchain = none := by
      cases htree : trees workchain with
      | none => rfl
      | some tree => exact absurd hvalid (h.workchains workchain (by rw [htree]; rfl)).2
    rw [hnone]
    exact ⟨none, if_pos (.inr hvalid), rfl⟩
  · have hgo : ¬(false = true ∨ workchain = workchainInvalid) := by simp [hvalid]
    rw [if_neg hgo]
    change ∃ r, (lookupIn dict (workchainKey workchain) >>= _) = .ok r ∧ _
    rw [hlookup]
    cases htree : trees workchain with
    | none =>
      rw [h.absent workchain htree]
      exact ⟨none, rfl, rfl⟩
    | some tree =>
      obtain ⟨root, hroot, hstores⟩ := h.present workchain tree htree
      rw [hroot]
      refine ⟨_, rfl, ?_⟩
      rw [shardPfxLen_shardOf hp]
      exact @descendFrom_eq _ _ [] hstores ⟨workchain, shardOf p⟩ exact p p (UInt64.ofNat (2 ^ 64 - 1)) rfl hp rfl
        (by decide)

/-- The leaf that is asked for, among those that are gone through. -/
theorem find?_leaves (h : c.WellFormed t trees descr) {workchain : Int32} {tree : BinTree Slice}
    (htree : trees workchain = some tree) {p : List Bool} (hp : p.length ≤ 63) (exact : Bool) :
    (tree.leaves.map fun x => descr workchain x.1).find? (isFor exact (shardOf p)) =
      (tree.descend p).bind fun x => if exact ∧ x.1 ≠ p then none else some (descr workchain x.1) := by
  have hlen : ∀ x ∈ tree.leaves, x.1.length ≤ 63 := fun x hx =>
    (BinTree.length_le_depth hx).trans ((h.depth workchain tree htree).trans (by decide))
  have hshard : ∀ x ∈ tree.leaves, (descr workchain x.1).blk.id.shard = shardOf x.1 := fun x hx =>
    (McShardHash.shard_of_unpack (h.unpacks workchain tree htree x hx)).2
  rw [List.find?_map]
  cases exact with
  | true =>
    have hpred : tree.leaves.find? (isFor true (shardOf p) ∘ fun x => descr workchain x.1) =
        tree.leaves.find? fun x => decide (x.1 = p) := by
      refine List.find?_congr fun x hx => ?_
      rw [Function.comp_apply, isFor, if_pos rfl, hshard x hx, Bool.eq_iff_iff, beq_iff_eq, decide_eq_true_eq,
        shardOf_inj (hlen x hx) hp]
    rw [hpred, BinTree.find?_leaves_path]
    cases tree.descend p with
    | none => rfl
    | some x =>
      rw [Option.bind_some, Option.bind_some]
      by_cases hx : x.1 = p
      · rw [if_pos hx, if_neg (by simp [hx])]
        rfl
      · rw [if_neg hx, if_pos ⟨rfl, hx⟩]
        rfl
  | false =>
    have hpred : tree.leaves.find? (isFor false (shardOf p) ∘ fun x => descr workchain x.1) =
        tree.leaves.find? fun x => decide (x.1 <+: p) := by
      refine List.find?_congr fun x hx => ?_
      rw [Function.comp_apply, isFor, if_neg Bool.false_ne_true, hshard x hx, Bool.eq_iff_iff, decide_eq_true_eq,
        shardIsAncestor_iff (hlen x hx) hp]
    rw [hpred, BinTree.find?_leaves]
    cases tree.descend p with
    | none => rfl
    | some x =>
      rw [Option.bind_some, if_neg (by simp)]
      rfl

/-- What the shards of a workchain look like: going through them finds leaves that have the workchain divided among
them, and a shard that is looked up is one of them, or has one on the way to it. -/
structure Agrees (c : ShardConfig) (split : Bool) (workchain : Int32) (leaves : List McShardHash) : Prop where
  enumerated : c.enumerate workchain = .ok (0, leaves)
  workchains : ∀ h ∈ leaves, h.blk.id.workchain = workchain
  distinct : (leaves.map fun h => h.blk.id.shard).Nodup
  covered : split = true → ∀ account : UInt64, ∃! h, h ∈ leaves ∧ shardContains h.blk.id.shard account = true
  found : ∀ shard, shard ≠ 0 → ∀ exact,
    c.getShardHash ⟨workchain, shard⟩ exact = .ok (leaves.find? (isFor exact shard))
  reported : ∀ shard, shard ≠ 0 → ∀ exact cs trueId leaf,
    c.getShardHashRaw ⟨workchain, shard⟩ exact = .ok (some (cs, trueId, leaf)) →
      ∃ h, leaves.find? (isFor exact shard) = some h ∧ trueId = ⟨workchain, h.blk.id.shard⟩ ∧
        McShardHash.unpack cs trueId = .ok (some h)
  whole : ∀ exact, c.getShardHash ⟨workchain, 0⟩ exact = c.getShardHash ⟨workchain, shardIdAll⟩ exact

/-- The word zero stands for the whole workchain. -/
theorem getShardHash_zero (workchain : Int32) (exact : Bool) (hmc : workchain ≠ masterchainId) :
    c.getShardHash ⟨workchain, 0⟩ exact = c.getShardHash ⟨workchain, shardIdAll⟩ exact := by
  have hnot (shard : UInt64) : ShardIdFull.isMasterchain ⟨workchain, shard⟩ = false := by
    simpa [ShardIdFull.isMasterchain] using hmc
  have hdescend (root : Cell) : descendFrom ⟨workchain, 0⟩ exact 0 root 0 (UInt64.ofNat (2 ^ 64 - 1)) =
      descendFrom ⟨workchain, shardIdAll⟩ exact 0 root shardIdAll (UInt64.ofNat (2 ^ 64 - 1)) := by
    have hword : ((0 : UInt64) ||| UInt64.ofNat (2 ^ 64 - 1)) - (UInt64.ofNat (2 ^ 64 - 1) >>> 1) =
        (shardIdAll ||| UInt64.ofNat (2 ^ 64 - 1)) - (UInt64.ofNat (2 ^ 64 - 1) >>> 1) := by decide
    rw [descendFrom, descendFrom]
    simp only [hword]
  have hall : shardPfxLen shardIdAll = 0 := shardPfxLen_shardOf (p := []) (by decide)
  have hraw : c.getShardHashRaw ⟨workchain, 0⟩ exact = c.getShardHashRaw ⟨workchain, shardIdAll⟩ exact := by
    unfold getShardHashRaw getShardHashRawFrom
    simp only [hnot, hall, show shardPfxLen 0 = 0 from rfl, hdescend]
  unfold getShardHash
  rw [hnot, hnot, hraw]
  rfl

/-- A shard that is looked up is found when one is reported for it. -/
theorem getShardHash_eq (h : c.WellFormed t trees descr) {workchain : Int32} (hmc : workchain ≠ masterchainId)
    {p : List Bool} (hp : p.length ≤ 63) (exact : Bool) :
    c.getShardHash ⟨workchain, shardOf p⟩ exact = .ok ((trees workchain).bind fun tree => (tree.descend p).bind fun x =>
      if exact ∧ x.1 ≠ p then none else some (descr workchain x.1)) := by
  have hnot : ShardIdFull.isMasterchain ⟨workchain, shardOf p⟩ = false := by
    simpa [ShardIdFull.isMasterchain] using hmc
  obtain ⟨r, hraw, hr⟩ := getShardHashRaw_eq h hmc hp exact
  have hunfold : c.getShardHash ⟨workchain, shardOf p⟩ exact =
      r.elim (.ok none) fun r => McShardHash.unpack r.1 r.2.1 := by
    unfold getShardHash
    rw [hnot, hraw]
    cases r <;> rfl
  rw [hunfold]
  cases htree : trees workchain with
  | none =>
    rw [htree] at hr
    rw [Option.map_eq_none_iff.1 hr]
    rfl
  | some tree =>
    rw [htree, Option.bind_some] at hr
    rw [Option.bind_some]
    cases hd : tree.descend p with
    | none =>
      rw [hd] at hr
      rw [Option.map_eq_none_iff.1 hr]
      rfl
    | some x =>
      rw [hd, Option.bind_some] at hr
      rw [Option.bind_some]
      by_cases hx : exact = true ∧ x.1 ≠ p
      · rw [if_pos hx] at hr ⊢
        rw [Option.map_eq_none_iff.1 hr]
        rfl
      · rw [if_neg hx] at hr ⊢
        obtain ⟨⟨cs, id, leaf⟩, rfl, heq⟩ := Option.map_eq_some_iff.1 hr
        obtain ⟨rfl, rfl⟩ := Prod.mk.inj heq
        exact h.unpacks workchain tree htree x (BinTree.descend_eq_some_iff.1 hd).1

/-- For every workchain but the masterchain, and for the masterchain, whose own description is kept apart. -/
theorem agrees_of_wellFormed (h : c.WellFormed t trees descr) :
    (∀ workchain, workchain ≠ masterchainId → ∃ leaves, c.Agrees (trees workchain).isSome workchain leaves) ∧
      ∀ shard exact, c.getShardHash ⟨masterchainId, shard⟩ exact =
        .ok (if !exact ∨ shard = shardIdAll then c.mcShardHash else none) := by
  constructor
  · intro workchain hmc
    cases htree : trees workchain with
    | none =>
      refine ⟨[], ⟨?_, by simp, List.nodup_nil, by simp, ?_, ?_, fun exact => getShardHash_zero workchain exact hmc⟩⟩
      · rw [enumerate_eq h, htree]
        rfl
      · intro shard hne exact
        obtain ⟨p, hp, rfl⟩ := exists_shardOf hne
        rw [getShardHash_eq h hmc hp, htree]
        rfl
      · intro shard hne exact cs trueId leaf hraw
        obtain ⟨p, hp, rfl⟩ := exists_shardOf hne
        obtain ⟨r, hr, hmap⟩ := getShardHashRaw_eq h hmc hp exact
        rw [htree, Option.bind_none, Option.map_eq_none_iff] at hmap
        rw [hr, hmap] at hraw
        cases hraw
    | some tree =>
      have hlen : ∀ x ∈ tree.leaves, x.1.length ≤ 63 := fun x hx =>
        (BinTree.length_le_depth hx).trans ((h.depth workchain tree htree).trans (by decide))
      have hblk : ∀ x ∈ tree.leaves, (descr workchain x.1).blk.id.workchain = workchain ∧
          (descr workchain x.1).blk.id.shard = shardOf x.1 := fun x hx =>
        McShardHash.shard_of_unpack (h.unpacks workchain tree htree x hx)
      refine ⟨tree.leaves.map fun x => descr workchain x.1,
        ⟨?_, ?_, ?_, ?_, ?_, ?_, fun exact => getShardHash_zero workchain exact hmc⟩⟩
      · rw [enumerate_eq h, htree]
        rfl
      · intro d hd
        obtain ⟨x, hx, rfl⟩ := List.mem_map.1 hd
        exact (hblk x hx).1
      · have hpaths : (tree.leaves.map fun x => descr workchain x.1).map (fun d => d.blk.id.shard) =
            (tree.leaves.map Prod.fst).map fun q => (descr workchain q).blk.id.shard := by
          rw [List.map_map, List.map_map]
          rfl
        rw [hpaths]
        refine List.Nodup.map_on ?_ (BinTree.nodup_paths tree)
        intro q hq q' hq' heq
        obtain ⟨x, hx, rfl⟩ := List.mem_map.1 hq
        obtain ⟨y, hy, rfl⟩ := List.mem_map.1 hq'
        rwa [(hblk x hx).2, (hblk y hy).2, shardOf_inj (hlen x hx) (hlen y hy)] at heq
      · intro _ account
        have hdepth : tree.depth ≤ (natToBits 64 account.toNat).length := by
          rw [length_natToBits]
          exact (h.depth workchain tree htree).trans (by decide)
        obtain ⟨x, ⟨hx, hpre⟩, hunique⟩ := BinTree.existsUnique_prefix hdepth
        refine ⟨descr workchain x.1, ⟨List.mem_map_of_mem hx, ?_⟩, ?_⟩
        · rwa [(hblk x hx).2, shardContains_iff (hlen x hx)]
        · rintro d ⟨hd, hcontains⟩
          obtain ⟨y, hy, rfl⟩ := List.mem_map.1 hd
          rw [(hblk y hy).2, shardContains_iff (hlen y hy)] at hcontains
          rw [hunique y ⟨hy, hcontains⟩]
      · intro shard hne exact
        obtain ⟨p, hp, rfl⟩ := exists_shardOf hne
        rw [getShardHash_eq h hmc hp, htree, find?_leaves h htree hp]
        rfl
      · intro shard hne exact cs trueId leaf hraw
        obtain ⟨p, hp, rfl⟩ := exists_shardOf hne
        obtain ⟨r, hr, hmap⟩ := getShardHashRaw_eq h hmc hp exact
        rw [hr] at hraw
        obtain rfl := Except.ok.inj hraw
        rw [htree, Option.bind_some, Option.map_some] at hmap
        rw [find?_leaves h htree hp]
        cases hd : tree.descend p with
        | none =>
          rw [hd] at hmap
          cases hmap
        | some x =>
          have hx := (BinTree.descend_eq_some_iff.1 hd).1
          rw [hd, Option.bind_some] at hmap
          rw [Option.bind_some]
          by_cases hexact : exact = true ∧ x.1 ≠ p
          · rw [if_pos hexact] at hmap
            cases hmap
          · rw [if_neg hexact] at hmap ⊢
            obtain ⟨rfl, rfl⟩ := Prod.mk.inj (Option.some.inj hmap)
            refine ⟨_, rfl, ?_, h.unpacks workchain tree htree x hx⟩
            rw [(hblk x hx).2]
  · intro shard exact
    rfl

end ShardConfig

end

/-! ## A workchain in two shards -/

namespace ShardConfig.Sample

abbrev digest : Digest where
  sha256 := fun _ => 0

/-- A description without anything in it. -/
def descrSlice : Slice := ⟨natToBits 4 10 ++ List.replicate 873 false, [.mk false (List.replicate 10 false) []]⟩

def leafCell : Cell := .mk false (false :: descrSlice.bits) descrSlice.refs

/-- A workchain that is split in two. -/
def tree : BinTree Slice := .fork (.leaf descrSlice) (.leaf descrSlice)

def entries : PrefixTree Slice := .leaf (workchainKey 0) ⟨[], [.mk false [true] [leafCell, leafCell]]⟩

def trees (workchain : Int32) : Option (BinTree Slice) := if workchain = 0 then some tree else none

def descr (workchain : Int32) (q : List Bool) : McShardHash where
  blk := ⟨⟨workchain, shardOf q, 0⟩, 0, 0⟩
  startLt := 0
  endLt := 0
  genUtime := 0
  minRefMcSeqno := 0
  regMcSeqno := 0
  beforeSplit := false
  beforeMerge := false
  wantSplit := false
  wantMerge := false
  nextCatchainSeqno := 0
  nextValidatorShard := shardOf q
  feesCollected := ⟨some (some 0), none⟩
  fundsCreated := ⟨some (some 0), none⟩

def config : ShardConfig where
  mcShardHash := some (descr masterchainId [])
  shardHashesDict := some (@Dict.store digest .plain 32 entries)

theorem isSome_store : (@Dict.store digest .plain 32 entries).isSome = true := by decide +kernel

set_option maxRecDepth 40000 in
theorem unpack_descrSlice (workchain : Int32) (q : List Bool) :
    @McShardHash.unpack digest (leafSlice descrSlice) ⟨workchain, shardOf q⟩ = .ok (some (descr workchain q)) := by
  rfl

theorem wellFormed : @WellFormed digest config (some entries) trees descr := by
  have htreeOf (workchain : Int32) (tree' : BinTree Slice) (h : trees workchain = some tree') :
      workchain = 0 ∧ tree = tree' := by
    unfold trees at h
    split at h
    · next hzero => exact ⟨hzero, Option.some.inj h⟩
    · cases h
  refine @WellFormed.mk digest _ _ _ _ ?_ ?_ ?_ ?_ ?_ ?_
  · obtain ⟨cell, hcell⟩ := Option.isSome_iff_exists.1 isSome_store
    refine ⟨some cell, ?_, cell, rfl, @Dict.parses_of_store digest _ _ _ _ ?_ hcell⟩
    · show some (@Dict.store digest .plain 32 entries) = some (some cell)
      rw [hcell]
    · show (workchainKey 0).length = 32
      exact length_natToBits _ _
  · intro workchain hnone
    show (entries.get (workchainKey workchain)) = none
    have hne : workchain ≠ 0 := by
      rintro rfl
      cases hnone
    have hkey : workchainKey 0 ≠ workchainKey workchain := by
      intro h
      have hvalue := congrArg bitsToNat h
      rw [workchainKey, workchainKey, bitsToNat_natToBits, bitsToNat_natToBits, Nat.mod_eq_of_lt (BitVec.isLt _),
        Nat.mod_eq_of_lt (BitVec.isLt _)] at hvalue
      exact hne (Int32.toBitVec_inj.1 (BitVec.eq_of_toNat_eq hvalue)).symm
    simp only [entries, PrefixTree.get, if_neg (Ne.symm hkey)]
  · intro workchain tree' htree
    obtain ⟨rfl, rfl⟩ := htreeOf workchain tree' htree
    refine ⟨.mk false [true] [leafCell, leafCell], ?_, .fork (.leaf descrSlice) (.leaf descrSlice)⟩
    show entries.get (workchainKey 0) = _
    rw [entries, PrefixTree.get_leaf_self]
  · intro workchain tree' htree
    obtain ⟨rfl, rfl⟩ := htreeOf workchain tree' htree
    decide
  · intro workchain tree' htree x hx
    obtain ⟨rfl, rfl⟩ := htreeOf workchain tree' htree
    have hslice : x.2 = descrSlice := by
      rcases List.mem_pair.1 hx with rfl | rfl <;> rfl
    rw [hslice]
    exact unpack_descrSlice 0 _
  · intro workchain hsome
    obtain ⟨tree', htree⟩ := Option.isSome_iff_exists.1 hsome
    obtain ⟨rfl, -⟩ := htreeOf workchain tree' htree
    decide

/-- Looking up and going through agree on it. -/
theorem agrees : (∀ workchain, workchain ≠ masterchainId →
      ∃ leaves, @Agrees digest config (trees workchain).isSome workchain leaves) ∧
    ∀ shard exact, @getShardHash digest config ⟨masterchainId, shard⟩ exact =
      .ok (if !exact ∨ shard = shardIdAll then config.mcShardHash else none) :=
  @agrees_of_wellFormed digest config (some entries) trees descr wellFormed

/-- The masterchain has a description that is in no tree. -/
theorem masterchain_not_enumerated :
    @WellFormed digest config (some entries) trees descr ∧ @enumerate digest config masterchainId = .ok (0, []) ∧
      @getShardHash digest config ⟨masterchainId, shardIdAll⟩ true = .ok (some (descr masterchainId [])) := by
  refine ⟨wellFormed, ?_, rfl⟩
  have h := @enumerate_eq digest config (some entries) trees descr wellFormed masterchainId
  rwa [show trees masterchainId = none from if_neg (by decide)] at h

end ShardConfig.Sample

end TonWallet.Block
