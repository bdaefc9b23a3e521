/-
How much weight the signatures of a block have (`check_block_signatures`, `unpack_validator_set`): accepted signatures
are those of distinct validators, and their weight is the exact sum. The threshold is compared modulo 2^64.
-/
import TonWallet.Block.ValidatorSet
import Mathlib.Data.List.Perm.Subperm

namespace TonWallet.Block

open Lib TonWallet.Td TonWallet.Ton TonWallet.Vm McConfig

/-! ## Weights -/

/-- The weight of some validators, exactly. -/
def exactWeight (nodes : List ValidatorDescr) : Nat := nodes.foldr (fun node weight => node.weight.toNat + weight) 0

@[simp] theorem exactWeight_nil : exactWeight [] = 0 := rfl

@[simp] theorem exactWeight_cons (node : ValidatorDescr) (nodes : List ValidatorDescr) :
    exactWeight (node :: nodes) = node.weight.toNat + exactWeight nodes := rfl

@[simp] theorem exactWeight_append (l l' : List ValidatorDescr) :
    exactWeight (l ++ l') = exactWeight l + exactWeight l' := by
  induction l with
  | nil => simp
  | cons node l ih => rw [List.cons_append, exactWeight_cons, exactWeight_cons, ih, Nat.add_assoc]

theorem exactWeight_perm {l l' : List ValidatorDescr} (h : l.Perm l') : exactWeight l = exactWeight l' := by
  induction h with
  | nil => rfl
  | cons node _ ih => rw [exactWeight_cons, exactWeight_cons, ih]
  | swap a b l =>
    simp only [exactWeight_cons]
    omega
  | trans _ _ ih ih' => exact ih.trans ih'

theorem exactWeight_sublist {l l' : List ValidatorDescr} (h : l.Sublist l') : exactWeight l ≤ exactWeight l' := by
  induction h with
  | slnil => exact Nat.le_refl _
  | cons node _ ih =>
    rw [exactWeight_cons]
    exact ih.trans (Nat.le_add_left _ _)
  | cons_cons node _ ih =>
    rw [exactWeight_cons, exactWeight_cons]
    exact Nat.add_le_add_left ih _

theorem exactWeight_subperm {l l' : List ValidatorDescr} (h : l.Subperm l') : exactWeight l ≤ exactWeight l' := by
  obtain ⟨m, hperm, hsub⟩ := h
  rw [← exactWeight_perm hperm]
  exact exactWeight_sublist hsub

/-- The sum in 64 bits of weights that fit. -/
theorem foldl_weight {nodes : List ValidatorDescr} (h : exactWeight nodes < 2 ^ 64) :
    (nodes.foldl (fun w n => w + n.weight) (0 : UInt64)).toNat = exactWeight nodes := by
  have hfold : ∀ (nodes : List ValidatorDescr) (w : UInt64), w.toNat + exactWeight nodes < 2 ^ 64 →
      (nodes.foldl (fun w n => w + n.weight) w).toNat = w.toNat + exactWeight nodes := by
    intro nodes
    induction nodes with
    | nil =>
      intro w _
      rfl
    | cons node nodes ih =>
      intro w hw
      rw [exactWeight_cons] at hw ⊢
      have hadd : (w + node.weight).toNat = w.toNat + node.weight.toNat := by
        rw [UInt64.toNat_add, Nat.mod_eq_of_lt (by omega)]
      rw [List.foldl_cons, ih _ (by omega), hadd, Nat.add_assoc]
  have hstart := hfold nodes 0 (by simpa using h)
  simpa using hstart

/-! ## Accepted sets -/

/-- What is known of a set while it is read: its weights are positive and their sum is exact. -/
structure ValidatorSet.Weighed (vset : ValidatorSet) : Prop where
  positive : ∀ node ∈ vset.exportValidatorSet, 0 < node.weight.toNat
  exact : vset.totalWeight.toNat = exactWeight vset.exportValidatorSet

theorem weighed_addValidator {root : Option Cell} {i : Nat} {vset vset' : ValidatorSet} (h : vset.Weighed)
    (hadd : addValidator root i vset = .ok vset') :
    vset'.Weighed ∧ vset'.list.length = vset.list.length + 1 := by
  obtain ⟨descr, pubkey, hpos, hsum, rfl⟩ := addValidator_ok hadd
  have hexport : ∀ node : WeightedDescr, ValidatorSet.exportValidatorSet
      { vset with list := vset.list ++ [node], totalWeight := vset.totalWeight + descr.weight } =
        vset.exportValidatorSet ++ [⟨node.pubkey, node.weight, node.adnlAddr⟩] := by
    intro node
    simp [ValidatorSet.exportValidatorSet]
  refine ⟨⟨?_, ?_⟩, List.length_append⟩
  · rw [hexport]
    rintro node hnode
    rcases List.mem_append.1 hnode with hnode | hnode
    · exact h.positive node hnode
    · rw [List.mem_singleton.1 hnode]
      exact hpos
  · rw [hexport, exactWeight_append, exactWeight_cons, exactWeight_nil, ← h.exact]
    change (vset.totalWeight + descr.weight).toNat = _
    rw [UInt64.toNat_add, Nat.mod_eq_of_lt (by omega), Nat.add_zero]

theorem weighed_addValidators {root : Option Cell} {n i : Nat} {vset vset' : ValidatorSet} (h : vset.Weighed)
    (hadd : addValidators root n i vset = .ok vset') :
    vset'.Weighed ∧ vset'.list.length = vset.list.length + n := by
  induction n generalizing i vset with
  | zero =>
    cases hadd
    exact ⟨h, rfl⟩
  | succ n ih =>
    obtain ⟨next, hnext, hadd⟩ := bind_ok hadd
    obtain ⟨hweighed, hlen⟩ := weighed_addValidator h hnext
    obtain ⟨hweighed', hlen'⟩ := ih hweighed hadd
    exact ⟨hweighed', by omega⟩

/-- An accepted set has positive weights and a sum that fits 64 bits. -/
theorem weighed_of_unpackValidatorSet [Digest] {root : Option Cell} {vset : ValidatorSet} (h : unpackValidatorSet root = .ok vset) :
    vset.Weighed ∧ exactWeight vset.exportValidatorSet < 2 ^ 64 := by
  obtain ⟨root, -, h⟩ := bind_ok h
  obtain ⟨⟨rec, dict⟩, -, h⟩ := bind_ok h
  obtain ⟨_, -, h⟩ := bind_ok h
  obtain ⟨last, -, h⟩ := bind_ok h
  obtain ⟨_, -, h⟩ := bind_ok h
  obtain ⟨read, hread, h⟩ := bind_ok h
  obtain ⟨_, -, h⟩ := bind_ok h
  cases h
  have hstart : ValidatorSet.Weighed
      { utimeSince := rec.utimeSince, utimeUntil := rec.utimeUntil, total := rec.total, main := rec.main } :=
    ⟨List.forall_mem_nil _, rfl⟩
  have hweighed := (weighed_addValidators hstart hread).1
  exact ⟨hweighed, hweighed.exact ▸ vset.totalWeight.toNat_lt⟩

section

variable [McConfig]

/-! ## Signers -/

/-- The validator with a short id: the first one, where several have the same key. -/
def signerOf (nodes : List ValidatorDescr) (id : Bits256) : Option Nat :=
  nodes.findIdx? fun node => computeNodeIdShort node.key == id

theorem signerOf_eq_some {nodes : List ValidatorDescr} {id : Bits256} {i : Nat} (h : signerOf nodes id = some i) :
    ∃ node, nodes[i]? = some node ∧ computeNodeIdShort node.key = id := by
  obtain ⟨hi, hid, -⟩ := List.findIdx?_eq_some_iff_getElem.1 h
  exact ⟨nodes[i], List.getElem?_eq_getElem hi, by simpa using hid⟩

theorem mem_nodeMap {nodes : List ValidatorDescr} {id : Bits256} {i : Nat} :
    (id, i) ∈ nodeMap nodes ↔ ∃ node, nodes[i]? = some node ∧ computeNodeIdShort node.key = id := by
  rw [nodeMap, List.mem_insertionSort, List.mem_iff_getElem?]
  constructor
  · rintro ⟨j, hj⟩
    rw [List.getElem?_mapIdx] at hj
    obtain ⟨node, hnode, heq⟩ := Option.map_eq_some_iff.1 hj
    cases heq
    exact ⟨node, hnode, rfl⟩
  · rintro ⟨node, hnode, rfl⟩
    exact ⟨i, by rw [List.getElem?_mapIdx, hnode]; rfl⟩

/-- The map is sorted by the short ids and then by the indices. -/
theorem pairwise_nodeMap (nodes : List ValidatorDescr) :
    (nodeMap nodes).Pairwise fun a b => a.1 < b.1 ∨ a.1 = b.1 ∧ a.2 ≤ b.2 := by
  have htotal : Std.Total fun a b : Bits256 × Nat => a.1 < b.1 ∨ a.1 = b.1 ∧ a.2 ≤ b.2 := by
    constructor
    intro a b
    simp only [BitVec.lt_def, ← BitVec.toNat_inj]
    omega
  have htrans : IsTrans (Bits256 × Nat) fun a b => a.1 < b.1 ∨ a.1 = b.1 ∧ a.2 ≤ b.2 := by
    constructor
    intro a b c
    simp only [BitVec.lt_def, ← BitVec.toNat_inj]
    omega
  exact List.pairwise_insertionSort _ _

/-- The search in the sorted map finds the signer. -/
theorem find_nodeMap {nodes : List ValidatorDescr} {id : Bits256} {i : Nat} (h : signerOf nodes id = some i) :
    (nodeMap nodes).find? (id ≤ ·.1) = some (id, i) := by
  obtain ⟨hi, hid, hleast⟩ := List.findIdx?_eq_some_iff_getElem.1 h
  have hmem : (id, i) ∈ nodeMap nodes := mem_nodeMap.2 (signerOf_eq_some h)
  cases hfind : (nodeMap nodes).find? (id ≤ ·.1) with
  | none =>
    have hnot := List.find?_eq_none.1 hfind (id, i) hmem
    simp at hnot
  | some e =>
    obtain ⟨hle, before, after, hsplit, hbefore⟩ := List.find?_eq_some_iff_append.1 hfind
    have hsorted := pairwise_nodeMap nodes
    rw [hsplit] at hmem hsorted
    have hle : id ≤ e.1 := by simpa using hle
    have hafter : (id, i) = e ∨ (id, i) ∈ after := by
      rcases List.mem_append.1 hmem with hm | hm
      · have hno := hbefore _ hm
        simp at hno
      · exact List.mem_cons.1 hm
    rcases hafter with rfl | hm
    · rfl
    · -- what is found first comes no later than the signer, and no member before the signer has its id
      have hrel := List.rel_of_pairwise_cons (List.pairwise_append.1 hsorted).2.1 hm
      rcases hrel with hlt | ⟨heq, hidx⟩
      · exact absurd hle (BitVec.not_le.2 hlt)
      · obtain ⟨eid, ei⟩ := e
        have heq : eid = id := heq
        subst heq
        have hmember : (eid, ei) ∈ nodeMap nodes := by
          rw [hsplit]
          exact List.mem_append_right _ List.mem_cons_self
        obtain ⟨node, hnode, hnodeId⟩ := mem_nodeMap.1 hmember
        rcases Nat.lt_or_eq_of_le hidx with hlt | hsame
        · have hnot := hleast ei hlt
          obtain ⟨hei, hnode⟩ := List.getElem?_eq_some_iff.1 hnode
          rw [hnode, hnodeId] at hnot
          simp at hnot
        · rw [show ei = i from hsame]

theorem signerOf_of_find {nodes : List ValidatorDescr} {id : Bits256} {i : Nat}
    (h : (nodeMap nodes).find? (id ≤ ·.1) = some (id, i)) : signerOf nodes id = some i := by
  obtain ⟨node, hnode, hid⟩ := mem_nodeMap.1 (List.mem_of_find?_eq_some h)
  cases hsigner : signerOf nodes id with
  | none =>
    have hnot := List.findIdx?_eq_none_iff.1 hsigner node (List.mem_of_getElem? hnode)
    rw [hid] at hnot
    simp at hnot
  | some j =>
    rw [find_nodeMap hsigner] at h
    cases h
    rfl

/-! ## The loop -/

/-- The validators whose signatures verify, one for each signature. -/
def Signed (nodes : List ValidatorDescr) (toSign : List UInt8) : List BlockSignature → List Nat → Prop :=
  List.Forall₂ fun sig i => signerOf nodes sig.node = some i ∧
    ∃ node, nodes[i]? = some node ∧ verifySignature node.key toSign sig.signature = .ok ()

/-- The signers themselves. -/
def membersAt (nodes : List ValidatorDescr) (signers : List Nat) : List ValidatorDescr := signers.filterMap (nodes[·]?)

theorem checkSignatures_cons {nodes : List ValidatorDescr} {toSign : List UInt8} {totalWeight : UInt64}
    {sig : BlockSignature} {i : Nat} {node : ValidatorDescr} (hsigner : signerOf nodes sig.node = some i)
    (hnode : nodes[i]? = some node) (hverify : verifySignature node.key toSign sig.signature = .ok ())
    (sigs : List BlockSignature) (seen : List Nat) (signed : UInt64) :
    checkSignatures nodes toSign totalWeight (sig :: sigs) seen signed =
      if signed + node.weight > totalWeight then .ok (seen ++ [i], signed + node.weight)
      else checkSignatures nodes toSign totalWeight sigs (seen ++ [i]) (signed + node.weight) := by
  have hid : failIf (sig.node ≠ sig.node) ("signature set contains unknown NodeIdShort " ++ hashHex sig.node) = .ok () :=
    failIf_ok_iff.2 (not_not.2 rfl)
  rw [checkSignatures, find_nodeMap hsigner]
  dsimp only
  rw [hid, hnode]
  change (ofStatus (verifySignature node.key toSign sig.signature) >>= _) = _
  rw [hverify]
  rfl

/-- What a signature was, once the loop has passed it. -/
theorem signed_of_checkSignatures {nodes : List ValidatorDescr} {toSign : List UInt8} {totalWeight : UInt64}
    {sig : BlockSignature} {sigs : List BlockSignature} {seen : List Nat} {signed : UInt64} {r : List Nat × UInt64}
    (h : checkSignatures nodes toSign totalWeight (sig :: sigs) seen signed = .ok r) :
    ∃ i node, signerOf nodes sig.node = some i ∧ nodes[i]? = some node ∧
      verifySignature node.key toSign sig.signature = .ok () := by
  rw [checkSignatures] at h
  cases hfind : (nodeMap nodes).find? (sig.node ≤ ·.1) with
  | none =>
    rw [hfind] at h
    exact absurd h fail_ne_ok
  | some e =>
    obtain ⟨id, i⟩ := e
    rw [hfind] at h
    obtain ⟨_, hid, h⟩ := bind_ok h
    have hid := not_not.1 (failIf_ok_iff.1 hid)
    cases hnode : nodes[i]? with
    | none =>
      rw [hnode] at h
      cases h
    | some node =>
      rw [hnode] at h
      obtain ⟨_, hverify, h⟩ := bind_ok h
      subst hid
      exact ⟨i, node, signerOf_of_find hfind, hnode, ofStatus_ok_iff.1 hverify⟩

omit [McConfig] in
theorem toNat_add_weight (signed weight : UInt64) (h : signed.toNat + weight.toNat < 2 ^ 64) :
    (signed + weight).toNat = signed.toNat + weight.toNat := by
  rw [UInt64.toNat_add, Nat.mod_eq_of_lt h]

/-- Signatures that weigh no more than the total are all looked at. -/
theorem checkSignatures_signed {nodes : List ValidatorDescr} {toSign : List UInt8} {totalWeight : UInt64}
    {sigs : List BlockSignature} {signers : List Nat} (h : Signed nodes toSign sigs signers) {seen : List Nat}
    {signed : UInt64} (hle : signed.toNat + exactWeight (membersAt nodes signers) ≤ totalWeight.toNat) :
    ∃ signed', checkSignatures nodes toSign totalWeight sigs seen signed = .ok (seen ++ signers, signed') ∧
      signed'.toNat = signed.toNat + exactWeight (membersAt nodes signers) := by
  induction h generalizing seen signed with
  | nil => exact ⟨signed, by rw [checkSignatures, List.append_nil], rfl⟩
  | @cons sig i sigs signers hsig _ ih =>
    obtain ⟨hsigner, node, hnode, hverify⟩ := hsig
    have hmembers : membersAt nodes (i :: signers) = node :: membersAt nodes signers := List.filterMap_cons_some hnode
    rw [hmembers, exactWeight_cons] at hle ⊢
    have htotal := totalWeight.toNat_lt
    have hadd := toNat_add_weight signed node.weight (by omega)
    have hstay : ¬ signed + node.weight > totalWeight := by
      rw [gt_iff_lt, UInt64.lt_iff_toNat_lt, hadd]
      omega
    obtain ⟨signed', hrun, hsum⟩ := @ih (seen ++ [i]) (signed + node.weight) (by omega)
    refine ⟨signed', ?_, by omega⟩
    rw [checkSignatures_cons hsigner hnode hverify, if_neg hstay, hrun, List.append_assoc]
    rfl

/-- What the loop has looked at when it ends: all signatures, or as many as are more than the total. -/
theorem checkSignatures_ok {nodes : List ValidatorDescr} {toSign : List UInt8} {totalWeight : UInt64}
    {sigs : List BlockSignature} {seen seen' : List Nat} {signed signed' : UInt64}
    (h : checkSignatures nodes toSign totalWeight sigs seen signed = .ok (seen', signed')) :
    ∃ front back signers, sigs = front ++ back ∧ Signed nodes toSign front signers ∧ seen' = seen ++ signers ∧
      (back = [] ∨ signed' > totalWeight) ∧
      (signed.toNat + exactWeight (membersAt nodes signers) < 2 ^ 64 →
        signed'.toNat = signed.toNat + exactWeight (membersAt nodes signers)) := by
  induction sigs generalizing seen signed with
  | nil =>
    cases h
    exact ⟨[], [], [], rfl, .nil, (List.append_nil _).symm, .inl rfl, fun _ => rfl⟩
  | cons sig sigs ih =>
    obtain ⟨i, node, hsigner, hnode, hverify⟩ := signed_of_checkSignatures h
    rw [checkSignatures_cons hsigner hnode hverify] at h
    split at h
    · next hmore =>
      cases h
      refine ⟨[sig], sigs, [i], rfl, .cons ⟨hsigner, node, hnode, hverify⟩ .nil, rfl, .inr hmore, ?_⟩
      have hmembers : membersAt nodes [i] = [node] := List.filterMap_cons_some hnode
      rw [hmembers, exactWeight_cons, exactWeight_nil, Nat.add_zero]
      exact toNat_add_weight signed node.weight
    · obtain ⟨front, back, signers, rfl, hsigned, rfl, hend, hsum⟩ := ih h
      have hmembers : membersAt nodes (i :: signers) = node :: membersAt nodes signers := List.filterMap_cons_some hnode
      refine ⟨sig :: front, back, i :: signers, rfl, .cons ⟨hsigner, node, hnode, hverify⟩ hsigned,
        by rw [List.append_assoc]; rfl, hend, ?_⟩
      rw [hmembers, exactWeight_cons]
      intro hlt
      have hadd := toNat_add_weight signed node.weight (by omega)
      have hrest := hsum (by omega)
      omega

/-! ## Distinct signers -/

omit [McConfig] in
theorem filterMap_range (nodes : List ValidatorDescr) : (List.range nodes.length).filterMap (nodes[·]?) = nodes := by
  induction nodes using List.reverseRecOn with
  | nil => rfl
  | append_singleton nodes node ih =>
    have hfront : (List.range nodes.length).filterMap ((nodes ++ [node])[·]?) =
        (List.range nodes.length).filterMap (nodes[·]?) := by
      refine List.filterMap_congr fun i hi => ?_
      exact List.getElem?_append_left (List.mem_range.1 hi)
    have hlast : (nodes ++ [node])[nodes.length]? = some node := by simp
    rw [List.length_append, List.length_singleton, List.range_succ, List.filterMap_append, hfront, ih,
      List.filterMap_cons_some hlast]
    rfl

theorem Signed.lt_length {nodes : List ValidatorDescr} {toSign : List UInt8} {sigs : List BlockSignature}
    {signers : List Nat} (h : Signed nodes toSign sigs signers) : ∀ i ∈ signers, i < nodes.length := by
  induction h with
  | nil => exact List.forall_mem_nil _
  | cons hsig _ ih =>
    obtain ⟨-, node, hnode, -⟩ := hsig
    exact List.forall_mem_cons.2 ⟨(List.getElem?_eq_some_iff.1 hnode).1, ih⟩

omit [McConfig] in
/-- Distinct signers are some of the validators. -/
theorem membersAt_subperm {nodes : List ValidatorDescr} {signers : List Nat} (hnodup : signers.Nodup)
    (hlt : ∀ i ∈ signers, i < nodes.length) : (membersAt nodes signers).Subperm nodes := by
  have hrange : signers.Subperm (List.range nodes.length) :=
    hnodup.subperm fun i hi => List.mem_range.2 (hlt i hi)
  obtain ⟨l, hperm, hsub⟩ := hrange
  refine ⟨l.filterMap (nodes[·]?), hperm.filterMap _, ?_⟩
  have hsub := hsub.filterMap (nodes[·]?)
  rwa [filterMap_range] at hsub

omit [McConfig] in
theorem firstRepeat_sorted {l : List Nat} (h : l.Pairwise (· ≤ ·)) : firstRepeat l = none ↔ l.Nodup := by
  induction l with
  | nil => exact iff_of_true rfl List.nodup_nil
  | cons a l ih =>
    obtain ⟨hle, hsorted⟩ := List.pairwise_cons.1 h
    cases l with
    | nil => exact iff_of_true rfl (List.nodup_singleton a)
    | cons b l =>
      rw [firstRepeat]
      by_cases hab : a = b
      · subst hab
        rw [if_pos rfl]
        exact iff_of_false (by simp) (by simp)
      · rw [if_neg hab, ih hsorted, List.nodup_cons (a := a)]
        refine ⟨fun hn => ⟨?_, hn⟩, fun hn => hn.2⟩
        -- an equal element further on would be no larger than the next one, which is larger
        rintro hmem
        have hle' : a ≤ b := hle b List.mem_cons_self
        rcases List.mem_cons.1 hmem with h' | h'
        · exact hab h'
        · have hba := (List.pairwise_cons.1 hsorted).1 a h'
          omega

omit [McConfig] in
theorem firstRepeat_insertionSort (l : List Nat) : firstRepeat (l.insertionSort (· ≤ ·)) = none ↔ l.Nodup := by
  rw [firstRepeat_sorted (List.pairwise_insertionSort _ _)]
  exact (List.perm_insertionSort _ _).nodup_iff

omit [McConfig] in
theorem three_mul_le_iff {signed total : UInt64} {w W : Nat} (hw : signed.toNat = w) (hW : total.toNat = W) :
    3 * signed ≤ 2 * total ↔ 3 * w % 2 ^ 64 ≤ 2 * W % 2 ^ 64 := by
  rw [UInt64.le_iff_toNat_le, UInt64.toNat_mul, UInt64.toNat_mul, hw, hW]
  rfl

/-! ## Accepted signatures -/

/-- The text of the error for too little weight. -/
def insufficientWeight (signedWeight totalWeight : Nat) : String :=
  "insufficient total signature weight: only " ++ toString signedWeight ++ " out of " ++ toString totalWeight

omit [McConfig] in
theorem toString_weight (x : UInt64) : toString x = toString x.toNat := by
  unfold toString instToStringUInt64
  rfl

omit [McConfig] in
theorem failIf_congr {p q : Prop} [Decidable p] [Decidable q] (h : p ↔ q) (text : String) :
    failIf p text = failIf q text := by
  by_cases hp : p
  · rw [failIf, failIf, if_pos hp, if_pos (h.1 hp)]
  · rw [failIf, failIf, if_neg hp, if_neg fun hq => hp (h.2 hq)]

/-- What follows the loop over the signatures. -/
def judge (nodes : List ValidatorDescr) (seen : List Nat) (signedWeight totalWeight : UInt64) : Result Unit :=
  match firstRepeat (seen.insertionSort (· ≤ ·)) with
  | some i => fail ("signature set contains duplicate signature for NodeIdShort " ++
      hashHex ((nodes[i]?.map fun n => computeNodeIdShort n.key).getD 0))
  | none =>
    failIf (3 * signedWeight ≤ 2 * totalWeight)
      ("insufficient total signature weight: only " ++ toString signedWeight ++ " out of " ++ toString totalWeight)

theorem judge_none {nodes : List ValidatorDescr} {seen : List Nat} {signedWeight totalWeight : UInt64}
    (h : firstRepeat (seen.insertionSort (· ≤ ·)) = none) :
    judge nodes seen signedWeight totalWeight =
      failIf (3 * signedWeight ≤ 2 * totalWeight)
        ("insufficient total signature weight: only " ++ toString signedWeight ++ " out of " ++ toString totalWeight) := by
  rw [judge, h]

theorem firstRepeat_of_judge {nodes : List ValidatorDescr} {seen : List Nat} {signedWeight totalWeight : UInt64}
    (h : judge nodes seen signedWeight totalWeight = .ok ()) : firstRepeat (seen.insertionSort (· ≤ ·)) = none := by
  rw [judge] at h
  split at h
  · exact absurd h fail_ne_ok
  · assumption

theorem checkBlockSignatures_of_run {nodes : List ValidatorDescr} {sigs : List BlockSignature} {blkid : BlockIdExt}
    {seen : List Nat} {signed : UInt64} (hnodes : failIf (nodes.isEmpty = true) "empty validator public keys set" = .ok ())
    (hsigs : failIf (sigs.isEmpty = true) "empty validator signature set" = .ok ())
    (hrun : checkSignatures nodes (blockToSign blkid) (nodes.foldl (fun w n => w + n.weight) 0) sigs [] 0 =
      .ok (seen, signed)) :
    checkBlockSignatures nodes sigs blkid = judge nodes seen signed (nodes.foldl (fun w n => w + n.weight) 0) := by
  rw [checkBlockSignatures, hnodes, hsigs]
  change (checkSignatures nodes (blockToSign blkid) (nodes.foldl (fun w n => w + n.weight) 0) sigs [] 0 >>= _) = _
  rw [hrun]
  rfl

/-- Verified signatures of distinct validators are judged by their exact weight, and that is what is reported; the
comparison is modulo 2^64. -/
theorem checkBlockSignatures_signed {nodes : List ValidatorDescr} {sigs : List BlockSignature} {blkid : BlockIdExt}
    {signers : List Nat} (hfits : exactWeight nodes < 2 ^ 64) (hsigs : sigs ≠ [])
    (h : Signed nodes (blockToSign blkid) sigs signers) (hnodup : signers.Nodup) :
    checkBlockSignatures nodes sigs blkid =
      failIf (3 * exactWeight (membersAt nodes signers) % 2 ^ 64 ≤ 2 * exactWeight nodes % 2 ^ 64)
        (insufficientWeight (exactWeight (membersAt nodes signers)) (exactWeight nodes)) := by
  have hnodes : nodes ≠ [] := by
    rintro rfl
    cases h with
    | nil => exact hsigs rfl
    | cons hsig _ =>
      obtain ⟨-, node, hnode, -⟩ := hsig
      cases hnode
  have hempty : failIf (nodes.isEmpty = true) "empty validator public keys set" = .ok () :=
    failIf_ok_iff.2 (by simpa using hnodes)
  have hempty' : failIf (sigs.isEmpty = true) "empty validator signature set" = .ok () :=
    failIf_ok_iff.2 (by simpa using hsigs)
  have htotal := foldl_weight hfits
  have hsub := exactWeight_subperm (membersAt_subperm hnodup h.lt_length)
  obtain ⟨signed, hrun, hsum⟩ := @checkSignatures_signed _ _ _ (nodes.foldl (fun w n => w + n.weight) 0) _ _ h [] 0
    (by rw [htotal]; simpa using hsub)
  rw [UInt64.toNat_zero, Nat.zero_add] at hsum
  rw [List.nil_append] at hrun
  have hle := three_mul_le_iff hsum htotal
  have hnone := (firstRepeat_insertionSort signers).2 hnodup
  rw [checkBlockSignatures_of_run hempty hempty' hrun, judge_none hnone, toString_weight, toString_weight, hsum, htotal]
  exact failIf_congr hle _

/-- Accepted signatures are all verified, and by distinct validators. -/
theorem signed_of_checkBlockSignatures {nodes : List ValidatorDescr} {sigs : List BlockSignature} {blkid : BlockIdExt}
    (hfits : exactWeight nodes < 2 ^ 64) (h : checkBlockSignatures nodes sigs blkid = .ok ()) :
    sigs ≠ [] ∧ ∃ signers : List Nat, signers.Nodup ∧ Signed nodes (blockToSign blkid) sigs signers := by
  obtain ⟨_, -, h⟩ := bind_ok h
  obtain ⟨_, hsigs, h⟩ := bind_ok h
  obtain ⟨⟨seen, signed⟩, hrun, h⟩ := bind_ok h
  have hfirst : firstRepeat (seen.insertionSort (· ≤ ·)) = none := firstRepeat_of_judge h
  have hsigs : sigs ≠ [] := by simpa using failIf_ok_iff.1 hsigs
  obtain ⟨front, back, signers, hsplit, hsigned, hseen, hend, hsum⟩ := checkSignatures_ok hrun
  rw [List.nil_append] at hseen
  subst hseen
  have hnodup : seen.Nodup := (firstRepeat_insertionSort seen).1 hfirst
  have hsub := exactWeight_subperm (membersAt_subperm hnodup hsigned.lt_length)
  rw [UInt64.toNat_zero, Nat.zero_add] at hsum
  have hexact := hsum (by omega)
  -- distinct validators cannot have more than the total weight, so the loop has not stopped before the end
  have hback : back = [] := by
    refine hend.resolve_right fun hmore => ?_
    rw [gt_iff_lt, UInt64.lt_iff_toNat_lt, foldl_weight hfits] at hmore
    omega
  rw [hback, List.append_nil] at hsplit
  rw [hsplit]
  exact ⟨hsplit ▸ hsigs, seen, hnodup, hsigned⟩

/-- What accepted signatures should be: those of distinct validators with more than two thirds of the exact weight. -/
def Approved (nodes : List ValidatorDescr) (sigs : List BlockSignature) (blkid : BlockIdExt) : Prop :=
  ∃ signers : List Nat, signers.Nodup ∧ Signed nodes (blockToSign blkid) sigs signers ∧
    2 * exactWeight nodes < 3 * exactWeight (membersAt nodes signers)

/-- Signatures of distinct validators with too little weight, where the comparison modulo 2^64 says otherwise. -/
def Overflows (nodes : List ValidatorDescr) (sigs : List BlockSignature) (blkid : BlockIdExt) : Prop :=
  ∃ signers : List Nat, signers.Nodup ∧ Signed nodes (blockToSign blkid) sigs signers ∧
    3 * exactWeight (membersAt nodes signers) ≤ 2 * exactWeight nodes ∧
    2 * exactWeight nodes % 2 ^ 64 < 3 * exactWeight (membersAt nodes signers) % 2 ^ 64

theorem Signed.unique {nodes : List ValidatorDescr} {toSign : List UInt8} {sigs : List BlockSignature}
    {signers signers' : List Nat} (h : Signed nodes toSign sigs signers) (h' : Signed nodes toSign sigs signers') :
    signers = signers' := by
  induction h generalizing signers' with
  | nil =>
    cases h'
    rfl
  | cons hsig _ ih =>
    cases h' with
    | cons hsig' hrest =>
      rw [Option.some.inj (hsig.1.symm.trans hsig'.1), ih hrest]

/-- For the validators of an accepted set, or any of them, accepted signatures are those of distinct validators with
more than two thirds of the exact weight exactly when the threshold does not overflow for them. Whatever the weights,
no validator is counted twice, and the weight of distinct validators that is compared and reported is the exact sum. -/
theorem approved_iff_not_overflows {root : Option Cell} {vset : ValidatorSet} (hset : unpackValidatorSet root = .ok vset)
    {nodes : List ValidatorDescr} (hnodes : nodes.Subperm vset.exportValidatorSet) (sigs : List BlockSignature)
    (blkid : BlockIdExt) :
    ((checkBlockSignatures nodes sigs blkid = .ok () → Approved nodes sigs blkid) ↔ ¬ Overflows nodes sigs blkid) ∧
    (checkBlockSignatures nodes sigs blkid = .ok () →
      ∃ signers : List Nat, signers.Nodup ∧ Signed nodes (blockToSign blkid) sigs signers) ∧
    (∀ signers : List Nat, sigs ≠ [] → signers.Nodup → Signed nodes (blockToSign blkid) sigs signers →
      checkBlockSignatures nodes sigs blkid =
        failIf (3 * exactWeight (membersAt nodes signers) % 2 ^ 64 ≤ 2 * exactWeight nodes % 2 ^ 64)
          (insufficientWeight (exactWeight (membersAt nodes signers)) (exactWeight nodes))) := by
  have hfits : exactWeight nodes < 2 ^ 64 :=
    (exactWeight_subperm hnodes).trans_lt (weighed_of_unpackValidatorSet hset).2
  refine ⟨⟨?_, ?_⟩, fun hok => (signed_of_checkBlockSignatures hfits hok).2, fun signers hsigs hnodup hsigned =>
    checkBlockSignatures_signed hfits hsigs hsigned hnodup⟩
  · rintro hsound ⟨signers, hnodup, hsigned, hle, hover⟩
    have hsigs : sigs ≠ [] := by
      rintro rfl
      cases hsigned
      simp [membersAt] at hover
    have hrun := checkBlockSignatures_signed hfits hsigs hsigned hnodup
    rw [failIf, if_neg (not_le.2 hover)] at hrun
    obtain ⟨signers', -, hsigned', hlt⟩ := hsound hrun
    rw [← hsigned.unique hsigned'] at hlt
    omega
  · intro hnot hok
    obtain ⟨hsigs, signers, hnodup, hsigned⟩ := signed_of_checkBlockSignatures hfits hok
    rw [checkBlockSignatures_signed hfits hsigs hsigned hnodup, failIf_ok_iff, not_le] at hok
    refine ⟨signers, hnodup, hsigned, ?_⟩
    by_contra hle
    exact hnot ⟨signers, hnodup, hsigned, not_lt.1 hle, hok⟩

end

/-! ## The lightest of two validators

Twice the total weight of two validators of weights `2 ^ 63` and 1 is 2 modulo `2 ^ 64`. -/

namespace Sample

/-- A validator in its leaf. -/
def validatorLeaf (key weight : Nat) : Cell :=
  .mk false ([false, false] ++ natToBits 8 0x53 ++ natToBits 32 0x8e81278a ++ natToBits 256 key ++ natToBits 64 weight) []

def validatorSetCell : Cell :=
  .mk false (natToBits 8 18 ++ natToBits 32 0 ++ natToBits 32 1 ++ natToBits 16 2 ++ natToBits 16 2 ++
    natToBits 64 (2 ^ 63 + 1) ++ [true])
    [.mk false ([true, true, false] ++ natToBits 5 15) [validatorLeaf 0 (2 ^ 63), validatorLeaf 1 1]]

def validators : ValidatorSet where
  utimeSince := 0
  utimeUntil := 1
  total := 2
  main := 2
  totalWeight := 9223372036854775809
  list := [⟨0, 9223372036854775808, 0, 0⟩, ⟨1, 1, 9223372036854775808, 0⟩]

theorem unpackValidatorSet_validatorSetCell : @unpackValidatorSet digest (some validatorSetCell) = .ok validators := by
  decide +kernel

def lightSignature : BlockSignature := ⟨@computeNodeIdShort mcConfig 1, []⟩

theorem signed_light : @Signed mcConfig validators.exportValidatorSet
    (blockToSign (blockId 1 (blockCell 1 false))) [lightSignature] [1] :=
  .cons ⟨by decide +kernel, ⟨1, 1, 0⟩, rfl, rfl⟩ .nil

theorem not_overflows_light_iff : (@checkBlockSignatures mcConfig validators.exportValidatorSet [lightSignature]
      (blockId 1 (blockCell 1 false)) = .ok () →
      @Approved mcConfig validators.exportValidatorSet [lightSignature] (blockId 1 (blockCell 1 false))) ↔
    ¬ @Overflows mcConfig validators.exportValidatorSet [lightSignature] (blockId 1 (blockCell 1 false)) :=
  (@approved_iff_not_overflows mcConfig _ _ unpackValidatorSet_validatorSetCell _ (List.Subperm.refl _) _ _).1

/-- The light validator alone is enough. -/
theorem light_not_approved :
    ¬ ∀ (E : McConfig) (root : Option Cell) (vset : ValidatorSet), @unpackValidatorSet E.toDigest root = .ok vset →
      ∀ (sigs : List BlockSignature) (blkid : BlockIdExt),
        @checkBlockSignatures E vset.exportValidatorSet sigs blkid = .ok () →
          @Approved E vset.exportValidatorSet sigs blkid := by
  intro h
  have hok : @checkBlockSignatures mcConfig validators.exportValidatorSet [lightSignature]
      (blockId 1 (blockCell 1 false)) = .ok () := by
    decide +kernel
  obtain ⟨signers, -, hsigned, hlt⟩ := h mcConfig _ _ unpackValidatorSet_validatorSetCell _ _ hok
  rw [@Signed.unique mcConfig _ _ _ _ _ hsigned signed_light] at hlt
  exact absurd hlt (by decide +kernel)

end Sample

end TonWallet.Block
