/-
Choosing the validators of a shard (`Config::do_compute_validator_set`, `block/mc-config`): for the masterchain the first of
the list, shuffled or not, for other shards members drawn by weight. The drawn members are kept as holes in the line of all
weights, past which a random position is moved.
-/
import TonWallet.Block.SignatureWeight
import TonWallet.Lib.WeightedDraw

namespace TonWallet.Block

open Lib TonWallet.Td TonWallet.Ton TonWallet.Vm

/-! ## Random numbers -/

/-- A generator of numbers below a range. -/
structure RangedGen (σ : Type) where
  nextRanged : σ → UInt64 → UInt64 × σ
  nextRanged_lt : ∀ s range, 0 < range → (nextRanged s range).1 < range

/-- `validator_set_descr`. -/
structure ValidatorSetDescr where
  seed : BitVec 256
  shard : ShardIdFull
  ccSeqno : UInt32

/-- `incr_seed`: the bytes of the seed are one number. -/
def ValidatorSetDescr.incrSeed (d : ValidatorSetDescr) : ValidatorSetDescr := { d with seed := d.seed + 1 }

/-- `ValidatorSetPRNG`: eight numbers are taken from each hash. -/
structure ValidatorSetPrng where
  data : ValidatorSetDescr
  hashLongs : List UInt64
  pos : Nat
  limit : Nat

namespace ValidatorSetPrng

def create (shard : ShardIdFull) (ccSeqno : UInt32) : ValidatorSetPrng := ⟨⟨0, shard, ccSeqno⟩, [], 0, 0⟩

/-- `next_ulong`; `hashTo`: the numbers of the hash of a description. -/
def nextUlong (hashTo : ValidatorSetDescr → List UInt64) (g : ValidatorSetPrng) : UInt64 × ValidatorSetPrng :=
  if g.pos < g.limit then (g.hashLongs.getD g.pos 0, { g with pos := g.pos + 1 })
  else ((hashTo g.data).getD 0 0, { data := g.data.incrSeed, hashLongs := hashTo g.data, pos := 1, limit := 8 })

/-- `next_ranged`: the high half of a product. -/
def nextRanged (hashTo : ValidatorSetDescr → List UInt64) (g : ValidatorSetPrng) (range : UInt64) :
    UInt64 × ValidatorSetPrng :=
  let (y, g) := g.nextUlong hashTo
  (.ofNat (range.toNat * y.toNat / 2 ^ 64), g)

/-- The generator of validator sets. -/
def gen (hashTo : ValidatorSetDescr → List UInt64) : RangedGen ValidatorSetPrng where
  nextRanged := nextRanged hashTo
  nextRanged_lt g range hrange := by
    have hpos : 0 < range.toNat := UInt64.lt_iff_toNat_lt.1 hrange
    have hlt : range.toNat * (g.nextUlong hashTo).1.toNat / 2 ^ 64 < range.toNat :=
      Nat.div_lt_of_lt_mul (by rw [Nat.mul_comm]; exact Nat.mul_lt_mul_of_pos_right (UInt64.toNat_lt _) hpos)
    rw [UInt64.lt_iff_toNat_lt]
    exact lt_of_le_of_lt (Nat.mod_le _ _) hlt

end ValidatorSetPrng

/-! ## The computation -/

/-- `CatchainValidatorsConfig`, as far as it is used here. -/
structure CatchainValidatorsConfig where
  shardValNum : UInt32
  shuffleMcVal : Bool

/-- A member of the list as it is exported, with a weight. -/
def WeightedDescr.descr (d : WeightedDescr) (weight : UInt64) : ValidatorDescr := ⟨d.pubkey, weight, d.adnlAddr⟩

/-- `ValidatorSet::at_weight`: in front of the first member that begins behind the position. -/
def ValidatorSet.atWeight (vset : ValidatorSet) (weightPos : UInt64) : Result WeightedDescr :=
  if weightPos < vset.totalWeight then
    match (vset.list.takeWhile fun d => !decide (weightPos < d.cumWeight)).getLast? with
    | some d => .ok d
    | none => .error (.check "it != list.begin()")
  else .error (.check "weight_pos < total_weight")

namespace ComputeValidatorSet

variable {σ : Type} (gen : RangedGen σ)

/-- The loop that shuffles the positions from `i` on. -/
def shuffle : Nat → Nat → List Nat → σ → Result (List Nat)
  | 0, _, idx, _ => .ok idx
  | turns + 1, i, idx, s =>
    let r := gen.nextRanged s (.ofNat (i + 1))
    let j := r.1.toUInt32.toNat
    if j ≤ i then shuffle turns (i + 1) ((idx.set i (idx.getD j 0)).set j i) r.2 else .error (.check "j <= i")

/-- `vset.list[idx[i]]` for every `i`, where an index that is too large would be undefined behaviour. -/
def nodesAt (list : List WeightedDescr) : List Nat → Result (List ValidatorDescr)
  | [] => .ok []
  | j :: idx => match list[j]? with
    | none => .error (.check "vset.list[idx[i]]")
    | some v => do return v.descr v.weight :: (← nodesAt list idx)

/-- The position is moved past the holes in front of it. -/
def skipHoles : List (UInt64 × UInt64) → UInt64 → UInt64
  | [], p => p
  | hole :: holes, p => if p < hole.1 then p else skipHoles holes (p + hole.2)

/-- `operator<` of pairs. -/
def pairLt (a b : UInt64 × UInt64) : Bool := decide (a.1 < b.1) || (!decide (b.1 < a.1) && decide (a.2 < b.2))

/-- A hole is inserted in front of the first that is larger. -/
def insertHole (holes : List (UInt64 × UInt64)) (newHole : UInt64 × UInt64) : Result (List (UInt64 × UInt64)) :=
  let front := holes.takeWhile fun hole => !pairLt newHole hole
  if front.getLast?.all fun hole => pairLt hole newHole then
    .ok (front ++ newHole :: holes.dropWhile fun hole => !pairLt newHole hole)
  else .error (.check "it == holes.begin() || *(it - 1) < new_hole")

/-- What is kept from one drawn member to the next. -/
structure Selection (σ : Type) where
  nodes : List ValidatorDescr
  holes : List (UInt64 × UInt64)
  totalWt : UInt64
  gen : σ

/-- One turn of the loop over the members to draw; they all get the weight 1. -/
def drawMember (vset : ValidatorSet) (st : Selection σ) : Result (Selection σ) :=
  if st.totalWt = 0 then .error (.check "total_wt > 0")
  else do
    let r := gen.nextRanged st.gen st.totalWt
    let entry ← vset.atWeight (skipHoles st.holes r.1)
    if st.totalWt < entry.weight then .error (.check "total_wt >= entry.weight")
    else do
      let holes ← insertHole st.holes (entry.cumWeight, entry.weight)
      return { nodes := st.nodes ++ [entry.descr 1], holes, totalWt := st.totalWt - entry.weight, gen := r.2 }

def drawMembers (vset : ValidatorSet) : Nat → Selection σ → Result (Selection σ)
  | 0, st => .ok st
  | count + 1, st => do drawMembers vset count (← drawMember gen vset st)

/-- How many validators are wanted. -/
def countOf (ccvConf : CatchainValidatorsConfig) (shard : ShardIdFull) (vset : ValidatorSet) : Nat :=
  min (if shard.isMasterchain then vset.main else ccvConf.shardValNum.toNat) vset.total

/-- The members for the masterchain, from the head of the list. -/
def mainMembers (shuffleMcVal : Bool) (vset : ValidatorSet) (count : Nat) (s : σ) : Result (List ValidatorDescr) :=
  if shuffleMcVal then do
    nodesAt vset.list (← shuffle gen count 0 (List.replicate count 0) s)
  else nodesAt vset.list (List.range count)

/-- The members for another shard. -/
def shardMembers (vset : ValidatorSet) (count : Nat) (s : σ) : Result (List ValidatorDescr) := do
  let st ← drawMembers gen vset count ⟨[], [], vset.totalWeight, s⟩
  return st.nodes

end ComputeValidatorSet

open ComputeValidatorSet in
/-- `Config::do_compute_validator_set`; `init`: the generator for a shard and a number of the catchain. -/
def doComputeValidatorSet {σ : Type} (gen : RangedGen σ) (init : ShardIdFull → UInt32 → σ)
    (ccvConf : CatchainValidatorsConfig) (shard : ShardIdFull) (vset : ValidatorSet) (ccSeqno : UInt32) :
    Result (List ValidatorDescr) :=
  let count := countOf ccvConf shard vset
  if vset.total ≠ vset.list.length then .error (.check "(unsigned)vset.total == vset.list.size()")
  else if count = 0 then .ok []
  else if shard.isMasterchain then mainMembers gen ccvConf.shuffleMcVal vset count (init shard ccSeqno)
  else shardMembers gen vset count (init shard ccSeqno)

/-! ## Accepted sets -/

/-- The weights of a list of members, as a line of their positions from `k` on. -/
@[grind =] def lineFrom : Nat → List WeightedDescr → Line Nat
  | _, [] => []
  | k, d :: list => (k, d.weight.toNat) :: lineFrom (k + 1) list

/-- Every member begins where those before it end, the first at `c`. -/
@[grind =] def Cumulative : Nat → List WeightedDescr → Prop
  | _, [] => True
  | c, d :: list => d.cumWeight.toNat = c ∧ 0 < d.weight.toNat ∧ Cumulative (c + d.weight.toNat) list

/-- The length of a line does not depend on how its members are counted. -/
theorem total_lineFrom (k : Nat) (l : List WeightedDescr) : (lineFrom k l).total = (lineFrom 0 l).total := by
  induction l generalizing k with
  | nil => rfl
  | cons d l ih => rw [lineFrom, lineFrom, Line.total_cons, Line.total_cons, ih, ih (0 + 1)]

theorem Cumulative.append {c : Nat} {l l' : List WeightedDescr} (h : Cumulative c l)
    (h' : Cumulative (c + (lineFrom 0 l).total) l') : Cumulative c (l ++ l') := by
  induction l generalizing c with
  | nil => exact h'
  | cons d l ih =>
    obtain ⟨hcum, hpos, h⟩ := h
    rw [lineFrom, Line.total_cons, total_lineFrom, ← Nat.add_assoc] at h'
    exact ⟨hcum, hpos, ih h h'⟩

theorem total_append (l l' : List WeightedDescr) :
    (lineFrom 0 (l ++ l')).total = (lineFrom 0 l).total + (lineFrom 0 l').total := by
  induction l with
  | nil => simp [lineFrom]
  | cons d l ih =>
    rw [List.cons_append, lineFrom, lineFrom, Line.total_cons, Line.total_cons, total_lineFrom, total_lineFrom (0 + 1), ih,
      Nat.add_assoc]

@[simp] theorem length_lineFrom (k : Nat) (l : List WeightedDescr) : (lineFrom k l).length = l.length := by
  induction l generalizing k with
  | nil => rfl
  | cons d l ih => rw [lineFrom, List.length_cons, ih, List.length_cons]

/-- The members of a line are those of the list. -/
theorem mem_lineFrom {k i w : Nat} {l : List WeightedDescr} (h : (i, w) ∈ lineFrom k l) :
    ∃ d, k ≤ i ∧ l[i - k]? = some d ∧ w = d.weight.toNat := by
  induction l generalizing k with
  | nil => cases h
  | cons d l ih =>
    rcases List.mem_cons.1 h with h | h
    · cases h
      exact ⟨d, Nat.le_refl _, by rw [Nat.sub_self]; rfl, rfl⟩
    · obtain ⟨d', hle, hget, hw⟩ := ih h
      refine ⟨d', by omega, ?_, hw⟩
      rw [show i - k = (i - (k + 1)) + 1 by omega, List.getElem?_cons_succ]
      exact hget

theorem nodup_lineFrom (k : Nat) (l : List WeightedDescr) : ((lineFrom k l).map Prod.fst).Nodup := by
  induction l generalizing k with
  | nil => exact List.nodup_nil
  | cons d l ih =>
    rw [lineFrom, List.map_cons, List.nodup_cons]
    refine ⟨fun hmem => ?_, ih _⟩
    obtain ⟨⟨i, w⟩, hi, heq⟩ := List.mem_map.1 hmem
    obtain ⟨-, hle, -⟩ := mem_lineFrom hi
    simp only at heq
    omega

theorem Cumulative.positive {c k : Nat} {l : List WeightedDescr} (h : Cumulative c l) : ∀ m ∈ lineFrom k l, 0 < m.2 := by
  induction l generalizing c k with
  | nil => exact List.forall_mem_nil _
  | cons d l ih => exact List.forall_mem_cons.2 ⟨h.2.1, ih h.2.2⟩

/-- The list of a set, which has a place for every position below the total weight. -/
structure Lined (vset : ValidatorSet) : Prop where
  cumulative : Cumulative 0 vset.list
  totalWeight : vset.totalWeight.toNat = (lineFrom 0 vset.list).total

theorem lined_addValidator {root : Option Cell} {i : Nat} {vset vset' : ValidatorSet} (h : Lined vset)
    (hadd : addValidator root i vset = .ok vset') : Lined vset' ∧ vset'.total = vset.total ∧ vset'.main = vset.main := by
  obtain ⟨descr, pubkey, hpos, hsum, rfl⟩ := addValidator_ok hadd
  refine ⟨⟨?_, ?_⟩, rfl, rfl⟩
  · refine h.cumulative.append ⟨?_, hpos, trivial⟩
    rw [Nat.zero_add]
    exact h.totalWeight
  · change (vset.totalWeight + descr.weight).toNat = _
    rw [total_append, ← h.totalWeight, UInt64.toNat_add, Nat.mod_eq_of_lt hsum]
    simp [lineFrom]

theorem lined_addValidators {root : Option Cell} {n i : Nat} {vset vset' : ValidatorSet} (h : Lined vset)
    (hadd : addValidators root n i vset = .ok vset') :
    Lined vset' ∧ vset'.total = vset.total ∧ vset'.main = vset.main := by
  induction n generalizing i vset with
  | zero =>
    cases hadd
    exact ⟨h, rfl, rfl⟩
  | succ n ih =>
    obtain ⟨next, hnext, hadd⟩ := bind_ok hadd
    obtain ⟨hlined, htotal, hmain⟩ := lined_addValidator h hnext
    obtain ⟨hlined', htotal', hmain'⟩ := ih hlined hadd
    exact ⟨hlined', htotal'.trans htotal, hmain'.trans hmain⟩

/-- The numbers of a record are in their ranges. -/
structure InRange (rec : ValidatorsRecord) : Prop where
  main_le : rec.main ≤ rec.total
  total_lt : rec.total < 2 ^ 16

theorem fetchUint_lt {n v : Nat} {cs cs' : CellSlice} (h : Fetch.fetchUint n cs = some (v, cs')) : v < 2 ^ n := by
  obtain ⟨hlen, rfl, -⟩ := Fetch.fetchUint_eq_some.1 h
  have hlt := bitsToNat_lt (cs.bits.take n)
  rwa [List.length_take, Nat.min_eq_left hlen] at hlt

theorem inRange_of_unpack {rec : ValidatorsRecord} {cs : CellSlice}
    (h : unpackExact unpackValidators cs = some rec ∨ unpackExact unpackValidatorsExt cs = some rec) : InRange rec := by
  rcases h with h | h
  -- the two records begin with the same fields
  all_goals
    obtain ⟨⟨_, _⟩, h, hrec⟩ := Option.bind_eq_some_iff.1 h
    obtain ⟨_, -, hrec⟩ := Option.bind_eq_some_iff.1 hrec
    cases hrec
    obtain ⟨_, _, -, h⟩ := Fetch.bind_eq_some.1 h
    obtain ⟨_, _, -, h⟩ := Fetch.bind_eq_some.1 h
    obtain ⟨_, _, -, h⟩ := Fetch.bind_eq_some.1 h
    obtain ⟨total, _, htotal, h⟩ := Fetch.bind_eq_some.1 h
    obtain ⟨main, _, -, h⟩ := Fetch.bind_eq_some.1 h
    obtain ⟨hle, h⟩ := Fetch.guard_bind_eq_some.1 h
    obtain ⟨-, h⟩ := Fetch.guard_bind_eq_some.1 h
  · obtain ⟨list, _, -, h⟩ := Fetch.bind_eq_some.1 h
    cases h
    exact ⟨hle, fetchUint_lt htotal⟩
  · obtain ⟨weight, _, -, h⟩ := Fetch.bind_eq_some.1 h
    obtain ⟨list, _, -, h⟩ := Fetch.bind_eq_some.1 h
    cases h
    exact ⟨hle, fetchUint_lt htotal⟩

/-- A set that is accepted. -/
structure Accepted (vset : ValidatorSet) : Prop where
  lined : Lined vset
  length_eq : vset.list.length = vset.total
  main_le : vset.main ≤ vset.total
  total_lt : vset.total < 2 ^ 16

theorem accepted_of_unpackValidatorSet [Digest] {root : Option Cell} {vset : ValidatorSet}
    (h : unpackValidatorSet root = .ok vset) : Accepted vset := by
  obtain ⟨root, -, h⟩ := bind_ok h
  obtain ⟨⟨rec, dict⟩, hrec, h⟩ := bind_ok h
  obtain ⟨_, -, h⟩ := bind_ok h
  obtain ⟨last, -, h⟩ := bind_ok h
  obtain ⟨_, -, h⟩ := bind_ok h
  obtain ⟨read, hread, h⟩ := bind_ok h
  obtain ⟨_, -, h⟩ := bind_ok h
  cases h
  have hrange : InRange rec := by
    obtain ⟨ext, hext, hrec⟩ := bind_ok hrec
    cases ext with
    | some ext =>
      obtain ⟨_, -, hrec⟩ := bind_ok hrec
      cases hrec
      exact inRange_of_unpack (.inr (unpackCell_ok hext).2)
    | none =>
      obtain ⟨rec0, hrec0, hrec⟩ := bind_ok hrec
      obtain ⟨_, -, hrec⟩ := bind_ok hrec
      cases hrec
      rw [orFail_ok_iff] at hrec0
      exact inRange_of_unpack (.inl (unpackCell_ok hrec0).2)
  have hstart : Lined { utimeSince := rec.utimeSince, utimeUntil := rec.utimeUntil, total := rec.total, main := rec.main } :=
    ⟨trivial, rfl⟩
  obtain ⟨hlined, htotal, hmain⟩ := lined_addValidators hstart hread
  have hlen := (weighed_addValidators ⟨List.forall_mem_nil _, rfl⟩ hread).2
  refine ⟨hlined, ?_, ?_, ?_⟩
  · rw [hlen, htotal]
    exact Nat.zero_add _
  · rw [hmain, htotal]
    exact hrange.main_le
  · rw [htotal]
    exact hrange.total_lt

/-! ## Positions on the line -/

namespace ComputeValidatorSet

/-- The member that covers a position is found. -/
theorem atWeight_eq {c k : Nat} {l : List WeightedDescr} {p : UInt64} (h : Cumulative c l) (hc : c ≤ p.toNat)
    (hp : p.toNat < c + (lineFrom k l).total) :
    ∃ i d, (lineFrom k l).memberAt (p.toNat - c) = some i ∧ k ≤ i ∧ l[i - k]? = some d ∧
      (l.takeWhile fun d => !decide (p < d.cumWeight)).getLast? = some d := by
  induction l generalizing c k with
  | nil => exact absurd hp (by simp only [lineFrom, Line.total_nil]; omega)
  | cons d l ih =>
    obtain ⟨hcum, hpos, hrest⟩ := h
    have htake : ((d :: l).takeWhile fun d => !decide (p < d.cumWeight)) =
        d :: l.takeWhile fun d => !decide (p < d.cumWeight) := by
      rw [List.takeWhile_cons_of_pos]
      simp only [Bool.not_eq_true', decide_eq_false_iff_not, UInt64.lt_iff_toNat_lt, hcum]
      omega
    rw [htake]
    rw [lineFrom, Line.total_cons] at hp
    rw [lineFrom, Line.memberAt]
    split
    · next hlt =>
      -- the next member begins behind the position
      refine ⟨k, d, rfl, Nat.le_refl k, by rw [Nat.sub_self]; rfl, ?_⟩
      have hnone : (l.takeWhile fun d => !decide (p < d.cumWeight)) = [] := by
        cases l with
        | nil => rfl
        | cons d' l =>
          rw [List.takeWhile_cons_of_neg]
          simp only [Bool.not_eq_true', decide_eq_false_iff_not, not_not, UInt64.lt_iff_toNat_lt, hrest.1]
          omega
      rw [hnone]
      rfl
    · next hlt =>
      obtain ⟨i, d', hmember, hk, hget, hlast⟩ := ih (k := k + 1) hrest (by omega) (by omega)
      refine ⟨i, d', ?_, by omega, ?_, ?_⟩
      · rw [← hmember]
        congr 1
        omega
      · rw [show i - k = (i - (k + 1)) + 1 by omega, List.getElem?_cons_succ]
        exact hget
      · rw [List.getLast?_cons, hlast]
        rfl

/-- Where the drawn members of a list stand, which is counted from `k` on. -/
@[grind =] def holesAt (drawn : List Nat) : Nat → List WeightedDescr → List (UInt64 × UInt64)
  | _, [] => []
  | k, d :: l => if k ∈ drawn then (d.cumWeight, d.weight) :: holesAt drawn (k + 1) l else holesAt drawn (k + 1) l

/-- Beginning and width of a hole. -/
def ofHole (hole : UInt64 × UInt64) : Nat × Nat := (hole.1.toNat, hole.2.toNat)

theorem map_holesAt {c : Nat} {l : List WeightedDescr} (h : Cumulative c l) (drawn : List Nat) (k : Nat) :
    (holesAt drawn k l).map ofHole = Line.holes drawn c (lineFrom k l) := by
  induction l generalizing c k with
  | nil => rfl
  | cons d l ih =>
    obtain ⟨hcum, -, hrest⟩ := h
    rw [holesAt, lineFrom, Line.holes, ← ih hrest]
    split
    · rw [List.map_cons, ofHole, hcum]
    · rfl

/-- The position is moved as on the line, while it fits. -/
theorem toNat_skipHoles {holes : List (UInt64 × UInt64)} {p : UInt64}
    (h : p.toNat + (holes.map ofHole).foldr (fun hole n => hole.2 + n) 0 < 2 ^ 64) :
    (skipHoles holes p).toNat = Line.skipHoles (holes.map ofHole) p.toNat := by
  induction holes generalizing p with
  | nil => rfl
  | cons hole holes ih =>
    rw [List.map_cons, List.foldr_cons] at h
    have hadd : (p + hole.2).toNat = p.toNat + hole.2.toNat := by
      rw [UInt64.toNat_add, Nat.mod_eq_of_lt]
      simp only [ofHole] at h
      omega
    have hrest := ih (p := p + hole.2) (by rw [hadd]; simp only [ofHole] at h ⊢; omega)
    rw [skipHoles, List.map_cons, ofHole, Line.skipHoles]
    by_cases hp : p.toNat < hole.1.toNat
    · rw [if_pos (UInt64.lt_iff_toNat_lt.2 hp), if_pos hp]
    · rw [if_neg (fun hlt => hp (UInt64.lt_iff_toNat_lt.1 hlt)), if_neg hp, hrest, hadd]

theorem le_of_mem_holesAt {drawn : List Nat} {c k : Nat} {l : List WeightedDescr} (h : Cumulative c l)
    {hole : UInt64 × UInt64} (hmem : hole ∈ holesAt drawn k l) : c ≤ hole.1.toNat := by
  have hline : ofHole hole ∈ Line.holes drawn c (lineFrom k l) := by
    rw [← map_holesAt h]
    exact List.mem_map_of_mem hmem
  exact Line.le_of_mem_holes hline

theorem pairLt_of_lt {a b : UInt64 × UInt64} (h : a.1.toNat < b.1.toNat) : pairLt a b = true ∧ pairLt b a = false := by
  have hab : a.1 < b.1 := UInt64.lt_iff_toNat_lt.2 h
  have hba : ¬b.1 < a.1 := fun hlt => absurd (UInt64.lt_iff_toNat_lt.1 hlt) (by omega)
  simp [pairLt, hab, hba]

theorem le_cumWeight {c j : Nat} {l : List WeightedDescr} {d : WeightedDescr} (h : Cumulative c l)
    (hget : l[j]? = some d) : c ≤ d.cumWeight.toNat := by
  induction l generalizing c j with
  | nil => cases hget
  | cons d' l ih =>
    obtain ⟨hcum, -, hrest⟩ := h
    cases j with
    | zero =>
      cases hget
      exact hcum.ge
    | succ j =>
      have hle := ih hrest (j := j) (by rwa [List.getElem?_cons_succ] at hget)
      omega

theorem holesAt_append_of_lt {drawn : List Nat} {i k : Nat} (h : i < k) (l : List WeightedDescr) :
    holesAt (drawn ++ [i]) k l = holesAt drawn k l := by
  induction l generalizing k with
  | nil => rfl
  | cons d l ih =>
    have hne : k ≠ i := by omega
    rw [holesAt, holesAt, ih (by omega)]
    simp only [List.mem_append, List.mem_singleton, hne, or_false]

/-- A hole is put where its member stands. -/
theorem split_holesAt {drawn : List Nat} {c k i : Nat} {l : List WeightedDescr} {d : WeightedDescr} (h : Cumulative c l)
    (hk : k ≤ i) (hget : l[i - k]? = some d) (hnot : i ∉ drawn) :
    (holesAt drawn k l).takeWhile (fun hole => !pairLt (d.cumWeight, d.weight) hole) ++
        (d.cumWeight, d.weight) :: (holesAt drawn k l).dropWhile (fun hole => !pairLt (d.cumWeight, d.weight) hole) =
      holesAt (drawn ++ [i]) k l ∧
    ∀ hole ∈ (holesAt drawn k l).takeWhile (fun hole => !pairLt (d.cumWeight, d.weight) hole),
      pairLt hole (d.cumWeight, d.weight) = true := by
  induction l generalizing c k with
  | nil => cases hget
  | cons d' l ih =>
    obtain ⟨hcum, hpos, hrest⟩ := h
    have hbehind : ∀ hole ∈ holesAt drawn (k + 1) l, c + d'.weight.toNat ≤ hole.1.toNat := fun hole hmem =>
      le_of_mem_holesAt hrest hmem
    rcases Nat.eq_or_lt_of_le hk with rfl | hlt
    · -- all other holes are behind the first member
      rw [Nat.sub_self] at hget
      cases hget
      have hfirst : ∀ hole ∈ holesAt drawn (k + 1) l, pairLt (d.cumWeight, d.weight) hole = true := fun hole hmem =>
        (pairLt_of_lt (by have := hbehind hole hmem; simp only; omega)).1
      have htake : (holesAt drawn (k + 1) l).takeWhile (fun hole => !pairLt (d.cumWeight, d.weight) hole) = [] ∧
          (holesAt drawn (k + 1) l).dropWhile (fun hole => !pairLt (d.cumWeight, d.weight) hole) =
            holesAt drawn (k + 1) l := by
        cases hholes : holesAt drawn (k + 1) l with
        | nil => exact ⟨rfl, rfl⟩
        | cons hole holes =>
          have hlt := hfirst hole (by rw [hholes]; exact List.mem_cons_self)
          rw [List.takeWhile_cons_of_neg (by simp [hlt]), List.dropWhile_cons_of_neg (by simp [hlt])]
          exact ⟨rfl, rfl⟩
      rw [holesAt, if_neg hnot, htake.1, htake.2, holesAt, if_pos (by simp), holesAt_append_of_lt (Nat.lt_succ_self k)]
      exact ⟨rfl, List.forall_mem_nil _⟩
    · have hget : l[i - (k + 1)]? = some d := by
        rwa [show i - k = (i - (k + 1)) + 1 by omega, List.getElem?_cons_succ] at hget
      obtain ⟨hsplit, hall⟩ := ih hrest hlt hget
      have hcum' := le_cumWeight hrest hget
      by_cases hdrawn : k ∈ drawn
      · obtain ⟨hfront, hback⟩ := pairLt_of_lt (a := (d'.cumWeight, d'.weight)) (b := (d.cumWeight, d.weight))
          (by simp only; omega)
        rw [holesAt, if_pos hdrawn, holesAt, if_pos (List.mem_append_left _ hdrawn),
          List.takeWhile_cons_of_pos (by simp [hback]), List.dropWhile_cons_of_pos (by simp [hback]), List.cons_append, hsplit]
        exact ⟨rfl, List.forall_mem_cons.2 ⟨hfront, hall⟩⟩
      · have hdrawn' : k ∉ drawn ++ [i] := by
          rw [List.mem_append, List.mem_singleton]
          rintro (hmem | rfl)
          · exact hdrawn hmem
          · exact Nat.lt_irrefl _ hlt
        rw [holesAt, if_neg hdrawn, holesAt, if_neg hdrawn']
        exact ⟨hsplit, hall⟩

theorem insertHole_holesAt {drawn : List Nat} {i : Nat} {l : List WeightedDescr} {d : WeightedDescr}
    (h : Cumulative 0 l) (hget : l[i]? = some d) (hnot : i ∉ drawn) :
    insertHole (holesAt drawn 0 l) (d.cumWeight, d.weight) = .ok (holesAt (drawn ++ [i]) 0 l) := by
  obtain ⟨hsplit, hall⟩ := split_holesAt (k := 0) h (Nat.zero_le i) hget hnot
  unfold insertHole
  rw [if_pos, hsplit]
  cases hlast : ((holesAt drawn 0 l).takeWhile fun hole => !pairLt (d.cumWeight, d.weight) hole).getLast? with
  | none => rfl
  | some hole => exact hall hole (List.mem_of_getLast? hlast)

/-! ## Drawing members -/

variable {σ : Type} {gen : RangedGen σ} {vset : ValidatorSet}

/-- Members are taken from positions of a list, one from each, with the given weights. -/
def TakenFrom (weight : WeightedDescr → UInt64) (list : List WeightedDescr) : List ValidatorDescr → List Nat → Prop :=
  List.Forall₂ fun node i => ∃ v, list[i]? = some v ∧ node = v.descr (weight v)

/-- What is kept while members are drawn. -/
structure Selected (vset : ValidatorSet) (drawn : List Nat) (st : Selection σ) : Prop where
  nodes : TakenFrom (fun _ => 1) vset.list st.nodes drawn
  holes : st.holes = holesAt drawn 0 vset.list
  totalWt : st.totalWt.toNat = ((lineFrom 0 vset.list).without drawn).total
  nodup : drawn.Nodup

/-- A member is drawn from what is left. -/
theorem drawMember_eq {drawn : List Nat} {st : Selection σ} (hlined : Lined vset) (h : Selected vset drawn st)
    (hleft : 0 < ((lineFrom 0 vset.list).without drawn).length) :
    ∃ i st', drawMember gen vset st = .ok st' ∧ Selected vset (drawn ++ [i]) st' ∧
      ((lineFrom 0 vset.list).without drawn).memberAt (gen.nextRanged st.gen st.totalWt).1.toNat = some i ∧
      st'.gen = (gen.nextRanged st.gen st.totalWt).2 ∧
      ((lineFrom 0 vset.list).without drawn).length = ((lineFrom 0 vset.list).without (drawn ++ [i])).length + 1 := by
  have hpos : 0 < ((lineFrom 0 vset.list).without drawn).total :=
    Line.total_pos (fun m hm => hlined.cumulative.positive m (List.mem_of_mem_filter hm)) hleft
  have hne : st.totalWt ≠ 0 := by
    intro h0
    rw [← h.totalWt, h0] at hpos
    exact absurd hpos (by decide)
  generalize hr : gen.nextRanged st.gen st.totalWt = r
  have hlt : r.1.toNat < ((lineFrom 0 vset.list).without drawn).total := by
    rw [← h.totalWt, ← UInt64.lt_iff_toNat_lt, ← hr]
    exact gen.nextRanged_lt _ _ (UInt64.lt_iff_toNat_lt.2 (by rw [h.totalWt]; exact hpos))
  -- the position on the whole line
  have hmap := map_holesAt hlined.cumulative drawn 0
  have hsum := Line.total_holes drawn 0 (lineFrom 0 vset.list)
  have hfits := vset.totalWeight.toNat_lt
  rw [hlined.totalWeight] at hfits
  have hskip : (skipHoles st.holes r.1).toNat = Line.skipHoles (Line.holes drawn 0 (lineFrom 0 vset.list)) r.1.toNat := by
    rw [h.holes, toNat_skipHoles, hmap]
    rw [hmap]
    omega
  have hmoved : (skipHoles st.holes r.1).toNat < (lineFrom 0 vset.list).total := by
    have hon := @Line.skipHoles_lt _ _ _ 0 _ _ hlt
    rw [Nat.zero_add, Nat.zero_add] at hon
    rwa [hskip]
  obtain ⟨i, d, hmember, -, hget, hlast⟩ := atWeight_eq (k := 0) hlined.cumulative (Nat.zero_le _)
    (p := skipHoles st.holes r.1) (by rw [Nat.zero_add]; exact hmoved)
  have hentry : vset.atWeight (skipHoles st.holes r.1) = .ok d := by
    unfold ValidatorSet.atWeight
    rw [if_pos (UInt64.lt_iff_toNat_lt.2 (by rw [hlined.totalWeight]; exact hmoved)), hlast]
  have hleftMember : ((lineFrom 0 vset.list).without drawn).memberAt r.1.toNat = some i := by
    rw [← Line.memberAt_skipHoles drawn 0, Nat.zero_add, ← hskip, hmember]
  -- the member has not been drawn yet
  obtain ⟨i', w, hi', hmem⟩ := Line.memberAt_of_lt hlt
  rw [hleftMember] at hi'
  cases hi'
  have hnot : i ∉ drawn := of_decide_eq_true (List.mem_filter.1 hmem).2
  obtain ⟨d', -, hget', hw⟩ := mem_lineFrom (List.mem_filter.1 hmem).1
  rw [hget] at hget'
  cases hget'
  obtain ⟨htotal, hlength⟩ := Line.without_drawn (nodup_lineFrom 0 vset.list) hmem
  have hweight : d.weight.toNat ≤ st.totalWt.toNat := by
    rw [h.totalWt, htotal, hw]
    exact Nat.le_add_right _ _
  refine ⟨i, ⟨st.nodes ++ [d.descr 1], holesAt (drawn ++ [i]) 0 vset.list, st.totalWt - d.weight, r.2⟩, ?_, ?_,
    hleftMember, rfl, hlength⟩
  · unfold drawMember
    rw [if_neg hne, hr]
    simp only [hentry, bind, Except.bind]
    rw [if_neg (fun hlt => absurd (UInt64.lt_iff_toNat_lt.1 hlt) (Nat.not_lt.2 hweight)), h.holes,
      insertHole_holesAt hlined.cumulative hget hnot]
    rfl
  · refine ⟨?_, rfl, ?_, ?_⟩
    · exact List.rel_append h.nodes (.cons ⟨d, hget, rfl⟩ .nil)
    · simp only
      rw [UInt64.toNat_sub_of_le _ _ (UInt64.le_iff_toNat_le.2 hweight), h.totalWt, htotal, hw]
      omega
    · refine List.nodup_append.2 ⟨h.nodup, List.nodup_singleton i, ?_⟩
      rintro a ha b hb rfl
      exact hnot (List.mem_singleton.1 hb ▸ ha)

/-- The numbers of a generator. -/
def onNat (gen : RangedGen σ) (s : σ) (range : Nat) : Nat × σ :=
  let r := gen.nextRanged s (.ofNat range)
  (r.1.toNat, r.2)

/-- Members are drawn from what is left, one after the other. -/
theorem drawMembers_eq (hlined : Lined vset) {count : Nat} {drawn : List Nat} {st : Selection σ}
    (h : Selected vset drawn st) (hleft : count ≤ ((lineFrom 0 vset.list).without drawn).length) :
    ∃ positions st', drawMembers gen vset count st = .ok st' ∧ Selected vset (drawn ++ positions) st' ∧
      positions.length = count ∧
      positions = Line.draws (onNat gen) count st.gen ((lineFrom 0 vset.list).without drawn) := by
  induction count generalizing drawn st with
  | zero => exact ⟨[], st, rfl, by rwa [List.append_nil], rfl, rfl⟩
  | succ count ih =>
    obtain ⟨i, next, hnext, hselected, hmember, hgen, hlength⟩ := @drawMember_eq _ gen _ _ _ hlined h (by omega)
    obtain ⟨positions, st', hrest, hselected', hcount, hdraws⟩ := ih hselected (by omega)
    refine ⟨i :: positions, st', ?_, ?_, by rw [List.length_cons, hcount], ?_⟩
    · rw [drawMembers, hnext]
      exact hrest
    · rwa [List.append_assoc, List.singleton_append] at hselected'
    · have hrange : onNat gen st.gen ((lineFrom 0 vset.list).without drawn).total =
          ((gen.nextRanged st.gen st.totalWt).1.toNat, (gen.nextRanged st.gen st.totalWt).2) := by
        rw [onNat, ← h.totalWt, UInt64.ofNat_toNat]
      rw [Line.draws, hrange]
      simp only [hmember]
      rw [hdraws, hgen, Line.without_append]

/-! ## Shuffling -/

/-- One turn of the shuffle puts the next position among those before it. -/
theorem take_set_set {idx : List Nat} {i j : Nat} (hj : j ≤ i) (hi : i < idx.length) :
    (((idx.set i (idx.getD j 0)).set j i).take (i + 1)).Perm (i :: idx.take i) := by
  obtain ⟨front, y, back, rfl, rfl⟩ : ∃ front y back, idx = front ++ y :: back ∧ front.length = i := by
    refine ⟨idx.take i, idx[i], idx.drop (i + 1), ?_, List.length_take_of_le hi.le⟩
    rw [List.getElem_cons_drop, List.take_append_drop]
  have hfirst : ∀ v, (front ++ y :: back).set front.length v = front ++ v :: back := by
    intro v
    rw [List.set_append_right _ _ (Nat.le_refl _), Nat.sub_self, List.set_cons_zero]
  rw [hfirst, List.take_left]
  rcases Nat.lt_or_eq_of_le hj with hj | rfl
  · obtain ⟨a, x, b, rfl, rfl⟩ : ∃ a x b, front = a ++ x :: b ∧ a.length = j := by
      refine ⟨front.take j, front[j], front.drop (j + 1), ?_, List.length_take_of_le hj.le⟩
      rw [List.getElem_cons_drop, List.take_append_drop]
    have hget : (a ++ x :: b ++ y :: back).getD a.length 0 = x := by simp
    have hset : ∀ n, (a ++ x :: b ++ x :: back).set a.length n = a ++ n :: b ++ x :: back := by
      intro n
      rw [List.append_assoc, List.set_append_right _ _ (Nat.le_refl _), Nat.sub_self, List.cons_append, List.set_cons_zero]
      simp
    rw [hget, hset]
    calc
      (a ++ (a ++ x :: b).length :: b ++ x :: back).take ((a ++ x :: b).length + 1)
        = a ++ (a ++ x :: b).length :: b ++ [x] := by
          rw [show a ++ (a ++ x :: b).length :: b ++ x :: back = (a ++ (a ++ x :: b).length :: b ++ [x]) ++ back by simp]
          exact List.take_left' (by simp only [List.length_append, List.length_cons, List.length_nil])
      List.Perm _ (x :: (a ++ (a ++ x :: b).length :: b)) := List.perm_append_singleton x _
      List.Perm _ (x :: (a ++ x :: b).length :: (a ++ b)) := List.perm_middle.cons x
      List.Perm _ ((a ++ x :: b).length :: x :: (a ++ b)) := List.Perm.swap _ _ _
      List.Perm _ ((a ++ x :: b).length :: (a ++ x :: b)) := List.perm_middle.symm.cons _
  · rw [List.set_append_right _ _ (Nat.le_refl _), Nat.sub_self, List.set_cons_zero]
    have htake : (front ++ front.length :: back).take (front.length + 1) = front ++ [front.length] := by
      rw [show front ++ front.length :: back = (front ++ [front.length]) ++ back by simp]
      exact List.take_left' (by simp)
    rw [htake]
    exact List.perm_append_singleton _ front

theorem shuffle_eq {count turns i : Nat} {idx : List Nat} {s : σ} (hcount : i + turns = count) (hlt : count < 2 ^ 16)
    (hlen : idx.length = count) (hperm : (idx.take i).Perm (List.range i)) :
    ∃ idx', shuffle gen turns i idx s = .ok idx' ∧ idx'.Perm (List.range count) := by
  induction turns generalizing i idx s with
  | zero =>
    refine ⟨idx, rfl, ?_⟩
    obtain rfl : i = count := by omega
    rwa [List.take_of_length_le hlen.le] at hperm
  | succ turns ih =>
    have hrange : (UInt64.ofNat (i + 1)).toNat = i + 1 := by
      rw [UInt64.toNat_ofNat', Nat.mod_eq_of_lt (by omega)]
    have hgen : (gen.nextRanged s (.ofNat (i + 1))).1.toNat < i + 1 := by
      have hpos : (0 : UInt64) < .ofNat (i + 1) := by
        rw [UInt64.lt_iff_toNat_lt, hrange]
        exact Nat.succ_pos i
      have hlt := UInt64.lt_iff_toNat_lt.1 (gen.nextRanged_lt s _ hpos)
      rwa [hrange] at hlt
    have hj : (gen.nextRanged s (.ofNat (i + 1))).1.toUInt32.toNat ≤ i := by
      rw [UInt64.toNat_toUInt32, Nat.mod_eq_of_lt (by omega)]
      omega
    rw [shuffle]
    simp only [if_pos hj]
    refine ih (by omega) (by simpa using hlen) ?_
    rw [List.range_succ]
    exact (take_set_set hj (by omega)).trans ((hperm.cons i).trans (List.perm_append_singleton i _).symm)

theorem nodesAt_eq {list : List WeightedDescr} {idx : List Nat} (h : ∀ i ∈ idx, i < list.length) :
    ∃ nodes, nodesAt list idx = .ok nodes ∧ TakenFrom (·.weight) list nodes idx := by
  induction idx with
  | nil => exact ⟨[], rfl, .nil⟩
  | cons j idx ih =>
    obtain ⟨hj, hidx⟩ := List.forall_mem_cons.1 h
    obtain ⟨nodes, hnodes, htaken⟩ := ih hidx
    have hget := List.getElem?_eq_getElem hj
    refine ⟨list[j].descr list[j].weight :: nodes, ?_, .cons ⟨_, hget, rfl⟩ htaken⟩
    rw [nodesAt, hget]
    simp only [hnodes]
    rfl

/-- The masterchain has the first members, in some order. -/
theorem mainMembers_eq (shuffleMcVal : Bool) {count : Nat} (s : σ) (hle : count ≤ vset.list.length)
    (hlt : count < 2 ^ 16) :
    ∃ nodes positions, mainMembers gen shuffleMcVal vset count s = .ok nodes ∧
      TakenFrom (·.weight) vset.list nodes positions ∧ positions.Perm (List.range count) ∧
      (shuffleMcVal = false → positions = List.range count) := by
  have hfirst : ∀ idx : List Nat, idx.Perm (List.range count) → ∀ i ∈ idx, i < vset.list.length := fun idx hperm i hi =>
    lt_of_lt_of_le (List.mem_range.1 (hperm.mem_iff.1 hi)) hle
  unfold mainMembers
  cases shuffleMcVal with
  | true =>
    obtain ⟨idx, hidx, hperm⟩ := @shuffle_eq _ gen _ _ 0 _ s (Nat.zero_add count) hlt
      (List.length_replicate (n := count) (a := 0)) (List.Perm.refl _)
    obtain ⟨nodes, hnodes, htaken⟩ := nodesAt_eq (hfirst idx hperm)
    refine ⟨nodes, idx, ?_, htaken, hperm, nofun⟩
    rw [if_pos rfl, hidx]
    exact hnodes
  | false =>
    obtain ⟨nodes, hnodes, htaken⟩ := nodesAt_eq (hfirst _ (List.Perm.refl _))
    exact ⟨nodes, List.range count, hnodes, htaken, List.Perm.refl _, fun _ => rfl⟩

/-- Another shard has members that are drawn. -/
theorem shardMembers_eq (hlined : Lined vset) {count : Nat} (s : σ) (hle : count ≤ vset.list.length) :
    ∃ nodes positions, shardMembers gen vset count s = .ok nodes ∧ TakenFrom (fun _ => 1) vset.list nodes positions ∧
      positions.Nodup ∧ positions.length = count ∧
      positions = Line.draws (onNat gen) count s (lineFrom 0 vset.list) := by
  have hnone : ∀ (k : Nat) (l : List WeightedDescr), holesAt [] k l = [] := by
    intro k l
    induction l generalizing k with
    | nil => rfl
    | cons d l ih => rw [holesAt, if_neg List.not_mem_nil, ih]
  have hall : (lineFrom 0 vset.list).without [] = lineFrom 0 vset.list := by
    simp [Line.without]
  have hstart : Selected vset [] (⟨[], [], vset.totalWeight, s⟩ : Selection σ) :=
    ⟨.nil, (hnone 0 vset.list).symm, by rw [hall, hlined.totalWeight], List.nodup_nil⟩
  obtain ⟨positions, st, hdrawn, hselected, hlen, hdraws⟩ := @drawMembers_eq _ gen _ hlined count _ _ hstart
    (by rwa [hall, length_lineFrom])
  rw [hall] at hdraws
  refine ⟨st.nodes, positions, ?_, hselected.nodes, hselected.nodup, hlen, hdraws⟩
  unfold shardMembers
  rw [hdrawn]
  rfl

end ComputeValidatorSet

open ComputeValidatorSet in
/-- As many members are chosen as are wanted and there are, from different positions: the first ones for the masterchain,
in some order, and otherwise ones that are drawn by weight from those that are left. -/
theorem doComputeValidatorSet_chooses [Digest] {root : Option Cell} {vset : ValidatorSet}
    (h : unpackValidatorSet root = .ok vset) {σ : Type} (gen : RangedGen σ) (init : ShardIdFull → UInt32 → σ)
    (ccvConf : CatchainValidatorsConfig) (shard : ShardIdFull) (ccSeqno : UInt32) :
    ∃ nodes positions, doComputeValidatorSet gen init ccvConf shard vset ccSeqno = .ok nodes ∧
      nodes.length = min (if shard.isMasterchain then vset.main else ccvConf.shardValNum.toNat) vset.total ∧
      positions.Nodup ∧
      (shard.isMasterchain = true → TakenFrom (·.weight) vset.list nodes positions ∧
        positions.Perm (List.range vset.main) ∧ (ccvConf.shuffleMcVal = false → positions = List.range vset.main)) ∧
      (shard.isMasterchain = false → TakenFrom (fun _ => 1) vset.list nodes positions ∧
        positions = Line.draws (onNat gen) nodes.length (init shard ccSeqno) (lineFrom 0 vset.list)) := by
  have haccepted := accepted_of_unpackValidatorSet h
  have hlined := haccepted.lined
  have htotal := haccepted.total_lt
  have hmain := haccepted.main_le
  have hcount : ∀ count, countOf ccvConf shard vset = count →
      min (if shard.isMasterchain then vset.main else ccvConf.shardValNum.toNat) vset.total = count := fun _ h => h
  have hle : countOf ccvConf shard vset ≤ vset.list.length := haccepted.length_eq ▸ Nat.min_le_right _ _
  have hmc : shard.isMasterchain = true → countOf ccvConf shard vset = vset.main := by
    intro hshard
    rw [countOf, if_pos hshard, Nat.min_eq_left hmain]
  unfold doComputeValidatorSet
  rw [if_neg (not_not.2 haccepted.length_eq.symm)]
  generalize countOf ccvConf shard vset = count at hcount hle hmc
  rw [hcount count rfl]
  by_cases hzero : count = 0
  · refine ⟨[], [], if_pos hzero, hzero.symm, List.nodup_nil, fun hshard => ?_, fun _ => ⟨.nil, rfl⟩⟩
    rw [← hmc hshard, hzero]
    exact ⟨.nil, List.Perm.refl _, fun _ => rfl⟩
  simp only [if_neg hzero]
  cases hshard : shard.isMasterchain with
  | true =>
    obtain ⟨nodes, positions, hnodes, htaken, hperm, hsame⟩ := @mainMembers_eq _ gen _ ccvConf.shuffleMcVal _
      (init shard ccSeqno) hle (by rw [hmc hshard]; omega)
    have hlen : nodes.length = count := by
      rw [htaken.length_eq, hperm.length_eq, List.length_range]
    refine ⟨nodes, positions, by rw [if_pos rfl]; exact hnodes, hlen, hperm.nodup_iff.2 List.nodup_range, fun _ => ?_, nofun⟩
    rw [← hmc hshard]
    exact ⟨htaken, hperm, hsame⟩
  | false =>
    obtain ⟨nodes, positions, hnodes, htaken, hnodup, hlen, hdraws⟩ := @shardMembers_eq _ gen _ haccepted.lined _
      (init shard ccSeqno) hle
    have hlength : nodes.length = count := htaken.length_eq.trans hlen
    refine ⟨nodes, positions, by rw [if_neg Bool.false_ne_true]; exact hnodes, hlength, hnodup, nofun, fun _ => ?_⟩
    rw [hlength]
    exact ⟨htaken, hdraws⟩

namespace Sample

/-- Two validators for a shard, from numbers that are all the same. -/
theorem doComputeValidatorSet_chooses_two :
    ∃ nodes positions, doComputeValidatorSet (ValidatorSetPrng.gen fun d => List.replicate 8 d.shard.shard)
        ValidatorSetPrng.create ⟨2, false⟩ ⟨0, shardIdAll⟩ validators 7 = .ok nodes ∧
      nodes.length = min 2 2 ∧ positions.Nodup ∧ ComputeValidatorSet.TakenFrom (fun _ => 1) validators.list nodes positions := by
  obtain ⟨nodes, positions, hnodes, hlen, hnodup, -, hshard⟩ :=
    @doComputeValidatorSet_chooses digest _ _ unpackValidatorSet_validatorSetCell _
      (ValidatorSetPrng.gen fun d => List.replicate 8 d.shard.shard) ValidatorSetPrng.create ⟨2, false⟩ ⟨0, shardIdAll⟩ 7
  exact ⟨nodes, positions, hnodes, hlen, hnodup, (hshard rfl).1⟩

end Sample

end TonWallet.Block
