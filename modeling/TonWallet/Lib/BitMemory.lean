/-
Memory as bytes at addresses, and its bits, the highest of a byte first. What an operation stores is told by the range of
bits it sets: such facts about neighbouring ranges compose, and a byte of which only some bits change sets only these.
-/
import Mathlib.Data.BitVec
import Mathlib.Data.List.TakeWhile
import Mathlib.Data.List.Basic

namespace Lib.BitMemory

/-! ## Bytes and bits -/

abbrev Memory := Int → BitVec 8

/-- The bit at an address of a bit. -/
def bit (m : Memory) (i : Int) : Bool := (m (i / 8)).getLsbD (7 - i % 8).toNat

/-- The bits from an address on. -/
def bitsAt (m : Memory) (i : Int) (n : Nat) : List Bool := (List.range n).map fun k : Nat => bit m (i + k)

def setByte (m : Memory) (p : Int) (b : BitVec 8) : Memory := fun a => if a = p then b else m a

/-- Bytes as a word, the first one highest. -/
def load (w : Nat) (m : Memory) (p : Int) : Nat → BitVec w
  | 0 => 0
  | n + 1 => load w m p n <<< 8 ||| (m (p + n)).setWidth w

/-- The low bytes of a word, the highest of them first. -/
def store {w : Nat} (m : Memory) (p : Int) (v : BitVec w) (n : Nat) : Memory :=
  fun a => if p ≤ a ∧ a < p + n then (v >>> (8 * (p + n - 1 - a).toNat)).setWidth 8 else m a

/-- Bytes from another place that is not overwritten. -/
def copyBytes (m : Memory) (dst src : Int) (n : Nat) : Memory :=
  fun a => if dst ≤ a ∧ a < dst + n then m (a - dst + src) else m a

def fillBytes (m : Memory) (dst : Int) (b : BitVec 8) (n : Nat) : Memory :=
  fun a => if dst ≤ a ∧ a < dst + n then b else m a

theorem getLsbD_byte (m : Memory) (p : Int) {k : Nat} (h : k < 8) : (m p).getLsbD k = bit m (8 * p + 7 - k) := by
  unfold bit
  congr 1
  · congr 1
    omega
  · omega

theorem getLsbD_load (w : Nat) (m : Memory) (p : Int) (n k : Nat) :
    (load w m p n).getLsbD k = (decide (k < w) && decide (k < 8 * n) && bit m (8 * p + 8 * n - 1 - k)) := by
  induction n generalizing k with
  | zero => simp [load]
  | succ n ih =>
    rw [load, BitVec.getLsbD_or, BitVec.getLsbD_shiftLeft, BitVec.getLsbD_setWidth, ih]
    by_cases hlow : k < 8
    · rw [getLsbD_byte m _ hlow, show 8 * (p + (n : Int)) + 7 - (k : Int) = 8 * p + 8 * ((n + 1 : Nat) : Int) - 1 - k by
        push_cast
        omega]
      simp [hlow, show k < 8 * (n + 1) by omega]
    · rw [BitVec.getLsbD_of_ge _ _ (not_lt.1 hlow),
        show 8 * p + 8 * (n : Int) - 1 - ((k - 8 : Nat) : Int) = 8 * p + 8 * ((n + 1 : Nat) : Int) - 1 - k by omega]
      have hless : k - 8 < 8 * n ↔ k < 8 * (n + 1) := by omega
      by_cases hw : k < w
      · simp [hlow, hw, hless, show k - 8 < w by omega]
      · simp [hw]

/-! ## Ranges of bits that are set -/

/-- The bits of a range become those of `f`, all others stay. -/
def Sets (m m' : Memory) (lo hi : Int) (f : Int → Bool) : Prop :=
  ∀ i, bit m' i = if lo ≤ i ∧ i < hi then f i else bit m i

namespace Sets

variable {m m' m'' : Memory} {lo mid hi : Int} {f g : Int → Bool}

theorem rfl {m : Memory} {lo : Int} {f : Int → Bool} : Sets m m lo lo f := by
  intro i
  rw [if_neg (by omega)]

theorem congr (h : Sets m m' lo hi f) (hfg : ∀ i, lo ≤ i → i < hi → f i = g i) : Sets m m' lo hi g := by
  intro i
  rw [h i]
  split_ifs with hin
  · exact hfg i hin.1 hin.2
  · exact Eq.refl _

/-- Neighbouring ranges. -/
theorem trans (h1 : Sets m m' lo mid f) (h2 : Sets m' m'' mid hi f) (h0 : lo ≤ mid) (hle : mid ≤ hi) :
    Sets m m'' lo hi f := by
  intro i
  rw [h2 i]
  by_cases hsecond : mid ≤ i ∧ i < hi
  · rw [if_pos hsecond, if_pos (by omega)]
  · rw [if_neg hsecond, h1 i]
    by_cases hfirst : lo ≤ i ∧ i < mid
    · rw [if_pos hfirst, if_pos (by omega)]
    · rw [if_neg hfirst, if_neg (by omega)]

/-- The end of a range that is set once more. -/
theorem overwrite (h1 : Sets m m' lo hi f) (h2 : Sets m' m'' mid hi g) (hle : mid ≤ hi) (hfg : ∀ i, lo ≤ i → i < mid → f i = g i)
    (h0 : lo ≤ mid) : Sets m m'' lo hi g := by
  intro i
  rw [h2 i]
  by_cases hlast : mid ≤ i ∧ i < hi
  · rw [if_pos hlast, if_pos (by omega)]
  · rw [if_neg hlast, h1 i]
    by_cases hfirst : lo ≤ i ∧ i < hi
    · rw [if_pos hfirst, if_pos hfirst, hfg i (by omega) (by omega)]
    · rw [if_neg hfirst, if_neg hfirst]

/-- A range may be cut down to the bits that change. -/
theorem narrow {lo' hi' : Int} (h : Sets m m' lo hi f) (hlo : lo ≤ lo') (hhi : hi' ≤ hi)
    (hsame : ∀ i, lo ≤ i → i < hi → i < lo' ∨ hi' ≤ i → f i = bit m i) : Sets m m' lo' hi' f := by
  intro i
  rw [h i]
  by_cases hin : lo' ≤ i ∧ i < hi'
  · rw [if_pos hin, if_pos (by omega)]
  · rw [if_neg hin]
    split_ifs with hwide
    · exact hsame i hwide.1 hwide.2 (by omega)
    · exact Eq.refl _

/-- Bits outside the range are those of before. -/
theorem bit_of_outside (h : Sets m m' lo hi f) {i : Int} (hi' : i < lo ∨ hi ≤ i) : bit m' i = bit m i := by
  rw [h i, if_neg (by omega)]

theorem bit_of_inside (h : Sets m m' lo hi f) {i : Int} (h0 : lo ≤ i) (h1 : i < hi) : bit m' i = f i := by
  rw [h i, if_pos ⟨h0, h1⟩]

theorem bitsAt_eq {n : Nat} (h : Sets m m' lo (lo + n) f) :
    bitsAt m' lo n = (List.range n).map fun k : Nat => f (lo + k) := by
  unfold bitsAt
  refine List.map_congr_left fun k hk => ?_
  have hk := List.mem_range.1 hk
  exact h.bit_of_inside (by omega) (by omega)

end Sets

theorem sets_setByte (m : Memory) (p : Int) (b : BitVec 8) :
    Sets m (setByte m p b) (8 * p) (8 * p + 8) fun i => b.getLsbD (8 * p + 7 - i).toNat := by
  intro i
  unfold bit setByte
  by_cases hin : i / 8 = p
  · rw [if_pos hin, if_pos (by omega)]
    congr 1
    omega
  · rw [if_neg hin, if_neg (by omega)]

theorem sets_store {w : Nat} (m : Memory) (p : Int) (v : BitVec w) (n : Nat) :
    Sets m (store m p v n) (8 * p) (8 * p + 8 * n) fun i => v.getLsbD (8 * p + 8 * n - 1 - i).toNat := by
  intro i
  unfold bit store
  by_cases hin : p ≤ i / 8 ∧ i / 8 < p + n
  · rw [if_pos hin, if_pos (by omega), BitVec.getLsbD_setWidth, decide_eq_true (by omega), Bool.true_and,
      BitVec.getLsbD_ushiftRight]
    congr 1
    omega
  · rw [if_neg hin, if_neg (by omega)]

theorem sets_copyBytes (m : Memory) (dst src : Int) (n : Nat) :
    Sets m (copyBytes m dst src n) (8 * dst) (8 * dst + 8 * n) fun i => bit m (i - 8 * dst + 8 * src) := by
  intro i
  unfold bit copyBytes
  by_cases hin : dst ≤ i / 8 ∧ i / 8 < dst + n
  · rw [if_pos hin, if_pos (by omega)]
    congr 1
    · congr 1
      omega
    · omega
  · rw [if_neg hin, if_neg (by omega)]

theorem sets_fillBytes (m : Memory) (dst : Int) (b : BitVec 8) (n : Nat) :
    Sets m (fillBytes m dst b n) (8 * dst) (8 * dst + 8 * n) fun i => b.getLsbD (7 - i % 8).toNat := by
  intro i
  unfold bit fillBytes
  by_cases hin : dst ≤ i / 8 ∧ i / 8 < dst + n
  · rw [if_pos hin, if_pos (by omega)]
  · rw [if_neg hin, if_neg (by omega)]

end Lib.BitMemory
