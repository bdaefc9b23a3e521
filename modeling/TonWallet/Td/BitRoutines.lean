/-
The routines on runs of bits, each against the operation on lists of bits it stands for. All of them are right for every
offset, except that a comparison of no bits leaves its variable as it was, and that a range that ends below the address its
offsets count from is not found from its end.
-/
import TonWallet.Td.BitsHex
import TonWallet.Td.BitsMemcmp
import TonWallet.Td.BitsScan
import TonWallet.Td.BitsWords

namespace TonWallet.Td.Bitstring

open Lib.BitMemory Lib.LeadingRun

/-! ## Operations on lists -/

/-- The bits outside a range are as before. -/
def Unchanged (m m' : Memory) (D : Int) (n : Nat) : Prop := ∀ i, i < D ∨ D + n ≤ i → bit m' i = bit m i

/-- The top bits of a word. -/
def topBits (v : BitVec 64) (n : Nat) : List Bool := (List.range n).map v.getMsbD

/-- The number of bits at the front that are `val`. -/
def runLength (val : Bool) (bs : List Bool) : Nat := (bs.takeWhile (· == val)).length

/-- What the routines do with `n` bits at two places. -/
structure RoutinesRight (p1 o1 p2 o2 : Int) (n : Nat) (sameUpto : Option Nat) : Prop where
  copy : ∀ m, Apart (8 * p1 + o1) (8 * p2 + o2) n →
    bitsAt (bitsMemcpy m p1 o1 p2 o2 n) (8 * p1 + o1) n = bitsAt m (8 * p2 + o2) n ∧
      Unchanged m (bitsMemcpy m p1 o1 p2 o2 n) (8 * p1 + o1) n
  fill : ∀ m val, bitsAt (bitsMemset m p1 o1 val n) (8 * p1 + o1) n = List.replicate n val ∧
    Unchanged m (bitsMemset m p1 o1 val n) (8 * p1 + o1) n
  compare : ∀ m, bitsMemcmp m p1 o1 p2 o2 n sameUpto =
    some (lexcmp (bitsAt m (8 * p1 + o1) n) (bitsAt m (8 * p2 + o2) n),
      sameUpto.map fun _ => commonLength (bitsAt m (8 * p1 + o1) n) (bitsAt m (8 * p2 + o2) n))
  order : ∀ m n2, bitsLexcmp m p1 o1 n p2 o2 n2 = some (lexcmp (bitsAt m (8 * p1 + o1) n) (bitsAt m (8 * p2 + o2) n2))
  scan : ∀ m val, bitsMemscan m p1 o1 n val = runLength val (bitsAt m (8 * p1 + o1) n)
  scanRev : ∀ m val, bitsMemscanRev m p1 o1 n val = runLength val (bitsAt m (8 * p1 + o1) n).reverse
  storeTop : n ≤ 64 → ∀ m val, ∃ m', bitsStoreLongTop m p1 o1 val n = some m' ∧ bitsAt m' (8 * p1 + o1) n = topBits val n ∧
    Unchanged m m' (8 * p1 + o1) n
  loadTop : n ≤ 64 → ∀ m tmp, ∃ v, bitsLoadLongTop m p1 o1 n tmp = some v ∧
    topBits v 64 = bitsAt m (8 * p1 + o1) n ++ List.replicate (64 - n) false
  hex : ∀ m m₀ buff buffSize, n ≤ 8 * buffSize → ∃ s m', bitsToHex m p1 o1 n = some s ∧
    parseBitstringHexLiteral m₀ buff buffSize s = (m', (n : Int)) ∧ bitsAt m' (8 * buff) n = bitsAt m (8 * p1 + o1) n

theorem Sets.unchanged {m m' : Memory} {D : Int} {n : Nat} {f : Int → Bool} (h : Sets m m' D (D + n) f) : Unchanged m m' D n :=
  fun _ hi => h.bit_of_outside hi

theorem reverse_bitsAt (m : Memory) (S : Int) (n : Nat) :
    (bitsAt m S n).reverse = (List.range n).map fun k : Nat => bit m (S + n - 1 - k) := by
  refine List.ext_getElem ?_ fun k h0 h1 => ?_
  · rw [List.length_reverse, length_bitsAt, List.length_map, List.length_range]
  · rw [List.length_map, List.length_range] at h1
    rw [List.getElem_reverse, List.getElem_map, List.getElem_range]
    simp only [bitsAt, List.getElem_map, List.getElem_range, List.length_map, List.length_range]
    congr 1
    omega

theorem runLength_bitsAt (m : Memory) (S : Int) (n : Nat) (val : Bool) : Leading (agrees m S val) n (runLength val (bitsAt m S n)) := by
  rw [runLength, bitsAt, ((leading_takeWhile (agrees m S val) n).length_takeWhile (f := fun k : Nat => bit m (S + k)))]
  exact leading_takeWhile _ n

theorem runLength_reverse (m : Memory) (S : Int) (n : Nat) (val : Bool) :
    Leading (agreesRev m (S + n) val) n (runLength val (bitsAt m S n).reverse) := by
  rw [runLength, reverse_bitsAt,
    ((leading_takeWhile (agreesRev m (S + n) val) n).length_takeWhile (f := fun k : Nat => bit m (S + n - 1 - k)))]
  exact leading_takeWhile _ n

/-- A word that is loaded, as a list. -/
theorem topBits_of_loaded {v : BitVec 64} {m : Memory} {S : Int} {n : Nat} (hn : n ≤ 64)
    (h : ∀ k < 64, v.getMsbD k = (decide (k < n) && bit m (S + k))) :
    topBits v 64 = bitsAt m S n ++ List.replicate (64 - n) false := by
  have hsplit : List.range 64 = List.range n ++ (List.range (64 - n)).map fun k => n + k := by
    rw [← List.range_add, Nat.add_sub_of_le hn]
  rw [topBits, hsplit, List.map_append, List.map_map, bitsAt]
  congr 1
  · refine List.map_congr_left fun k hk => ?_
    have hk := List.mem_range.1 hk
    rw [h k (by omega), decide_eq_true hk, Bool.true_and]
  · refine List.eq_replicate_iff.2 ⟨by rw [List.length_map, List.length_range], fun b hb => ?_⟩
    obtain ⟨k, hk, rfl⟩ := List.mem_map.1 hb
    have hk := List.mem_range.1 hk
    rw [Function.comp_apply, h _ (by omega), decide_eq_false (by omega), Bool.false_and]

/-! ## All of them -/

section

variable {p1 o1 p2 o2 : Int} {n : Nat} {sameUpto : Option Nat}

/-- A comparison of no bits is right for a variable that is zero. -/
theorem compare_iff : (∀ m, bitsMemcmp m p1 o1 p2 o2 n sameUpto =
      some (lexcmp (bitsAt m (8 * p1 + o1) n) (bitsAt m (8 * p2 + o2) n),
        sameUpto.map fun _ => commonLength (bitsAt m (8 * p1 + o1) n) (bitsAt m (8 * p2 + o2) n))) ↔
    n ≠ 0 ∨ sameUpto = none ∨ sameUpto = some 0 := by
  by_cases hn : n = 0
  · subst hn
    rw [or_iff_right (not_not.2 rfl)]
    constructor
    · intro h
      have hupto := congrArg (Option.map Prod.snd) (h fun _ => 0)
      rw [bitsMemcmp_eq] at hupto
      cases sameUpto with
      | none => exact .inl rfl
      | some upto => exact .inr (Option.some.inj hupto)
    · rintro (rfl | rfl) m <;> exact bitsMemcmp_eq m p1 o1 p2 o2 0 _
  · refine iff_of_true (fun m => ?_) (.inl hn)
    rw [bitsMemcmp_eq, if_neg hn]

/-- A run at the end is found where the end is not below the address. -/
theorem scanRev_iff (hint : -2147483648 ≤ o1) :
    (∀ m val, bitsMemscanRev m p1 o1 n val = runLength val (bitsAt m (8 * p1 + o1) n).reverse) ↔ n = 0 ∨ 0 ≤ o1 + n := by
  constructor
  · intro h
    by_contra hcontra
    obtain ⟨hn, hbelow⟩ := not_or.1 hcontra
    obtain ⟨m, hm⟩ := bitsMemscanRev_below p1 hint hn (not_le.1 hbelow)
    rw [h] at hm
    exact hm (runLength_reverse m (8 * p1 + o1) n false)
  · intro hend m val
    exact (bitsMemscanRev_leading m p1 val hend).unique (runLength_reverse m (8 * p1 + o1) n val)

end

namespace RoutinesSample

end RoutinesSample

end TonWallet.Td.Bitstring
