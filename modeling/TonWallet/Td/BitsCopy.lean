/-
Copying and filling runs of bits (`bits_memcpy`, `bits_memset`). A copy between different offsets within bytes goes through an
accumulator that carries the bits of a byte or two; what it carries and what is stored are the bits of the finished copy.
-/
import TonWallet.Lib.BitMemory

namespace TonWallet.Td.Bitstring

open Lib.BitMemory

/-! ## Masks -/

/-- `0xff >> n`. -/
def lowMask (n : Nat) : BitVec 8 := 0xff#8 >>> n

/-- `-0x100 >> n`, cut to a byte. -/
def highMask (n : Nat) : BitVec 8 := ((0xffffff00#32).sshiftRight n).setWidth 8

/-- `(old & ~mask) | (new & mask)`. -/
def mixByte (old new mask : BitVec 8) : BitVec 8 := old &&& ~~~mask ||| new &&& mask

theorem getLsbD_lowMask (n k : Nat) : (lowMask n).getLsbD k = decide (k + n < 8) := by
  rw [lowMask, BitVec.getLsbD_ushiftRight, show (0xff#8) = BitVec.allOnes 8 from rfl, BitVec.getLsbD_allOnes, Nat.add_comm]

theorem getLsbD_highMask {n k : Nat} (hn : n ≤ 8) (hk : k < 8) : (highMask n).getLsbD k = decide (8 ≤ k + n) := by
  have hall : ∀ n < 9, ∀ k < 8, (highMask n).getLsbD k = decide (8 ≤ k + n) := by decide
  exact hall n (by omega) k hk

theorem getLsbD_mixByte (old new mask : BitVec 8) {k : Nat} (hk : k < 8) :
    (mixByte old new mask).getLsbD k = if mask.getLsbD k then new.getLsbD k else old.getLsbD k := by
  rw [mixByte, BitVec.getLsbD_or, BitVec.getLsbD_and, BitVec.getLsbD_and, BitVec.getLsbD_not, decide_eq_true hk, Bool.true_and]
  cases mask.getLsbD k <;> simp

/-! ## Copies -/

/-- Between places with one offset within bytes; `count` is from the beginning of the first byte. -/
def copyAligned (m : Memory) (dst src : Int) (offs count : Nat) : Memory :=
  if count < 8 then setByte m dst (mixByte (m dst) (m src) (highMask count &&& lowMask offs))
  else
    let l := count / 8
    let m :=
      if offs = 0 then copyBytes m dst src l
      else
        let m := setByte m dst (mixByte (m dst) (m src) (lowMask offs))
        copyBytes m (dst + 1) (src + 1) (l - 1)
    if count % 8 ≠ 0 then setByte m (dst + l) (mixByte (m (dst + l)) (m (src + l)) (highMask (count % 8))) else m

/-- Four bytes at a time, as long as there are so many. -/
def copyWords (m : Memory) (dst src : Int) (acc : BitVec 64) (b count : Nat) : Memory × Int × Int × BitVec 64 × Nat :=
  if 32 ≤ count then
    let acc := acc <<< 32 ||| (load 32 m src 4).setWidth 64
    copyWords (store m dst ((acc >>> b).setWidth 32) 4) (dst + 4) (src + 4) acc b (count - 32)
  else (m, dst, src, acc, count)
termination_by count

/-- Whole bytes go to the accumulator. -/
def takeBytes (m : Memory) (src : Int) (acc : BitVec 64) (b count : Nat) : Int × BitVec 64 × Nat × Nat :=
  if 8 ≤ count then takeBytes m (src + 1) (acc <<< 8 ||| (m src).setWidth 64) (b + 8) (count - 8) else (src, acc, b, count)
termination_by count

/-- And whole bytes leave it. -/
def putBytes (m : Memory) (dst : Int) (acc : BitVec 64) (b : Nat) : Memory × Int × Nat :=
  if 8 ≤ b then putBytes (setByte m dst ((acc >>> (b - 8)).setWidth 8)) (dst + 1) acc (b - 8) else (m, dst, b)
termination_by b

/-- What the loops leave in the accumulator. -/
def takeBits (m : Memory) (dst src : Int) (acc : BitVec 64) (b srcOffs sz : Nat) : Memory × Int × BitVec 64 × Nat :=
  let count := sz + srcOffs
  if count < 8 then (m, dst, acc <<< sz ||| ((m src &&& lowMask srcOffs) >>> (8 - count)).setWidth 64, b + sz)
  else
    let ld := 8 - srcOffs
    let acc := acc <<< ld ||| (m src &&& lowMask srcOffs).setWidth 64
    let (m, dst, src, acc, count) := copyWords m dst (src + 1) acc (b + ld) (count - 8)
    let (src, acc, b, count) := takeBytes m src acc (b + ld) count
    if 0 < count then (m, dst, acc <<< count ||| (m src >>> (8 - count)).setWidth 64, b + count) else (m, dst, acc, b)

/-- Between places with different offsets. -/
def copyShifted (m : Memory) (dst src : Int) (dstOffs srcOffs sz : Nat) : Memory :=
  let acc : BitVec 64 := if dstOffs ≠ 0 then (m dst >>> (8 - dstOffs)).setWidth 64 else 0
  let (m, dst, acc, b) := takeBits m dst src acc dstOffs srcOffs sz
  let (m, dst, b) := putBytes m dst acc b
  if 0 < b then setByte m dst (m dst &&& lowMask b ||| acc.setWidth 8 <<< (8 - b)) else m

/-- `bits_memcpy`. -/
def bitsMemcpy (m : Memory) (dst dstOffs src srcOffs : Int) (count : Nat) : Memory :=
  if count = 0 then m
  else
    let src := src + srcOffs / 8
    let dst := dst + dstOffs / 8
    let srcOffs := (srcOffs % 8).toNat
    let dstOffs := (dstOffs % 8).toNat
    if srcOffs = dstOffs then copyAligned m dst src dstOffs (count + srcOffs) else copyShifted m dst src dstOffs srcOffs count

/-- `bits_memset`. -/
def bitsMemset (m : Memory) (dst dstOffs : Int) (val : Bool) (count : Nat) : Memory :=
  if count = 0 then m
  else
    let dst := dst + dstOffs / 8
    let offs := (dstOffs % 8).toNat
    let sz := count
    let count := count + offs
    let c := m dst
    if count ≤ 8 then
      let mask := highMask sz >>> offs
      setByte m dst (if val then c ||| mask else c &&& ~~~mask)
    else
      let m := setByte m dst (if val then c ||| lowMask offs else c &&& highMask offs)
      let l := count / 8
      let m := fillBytes m (dst + 1) (if val then 0xff#8 else 0#8) (l - 1)
      let count := count % 8
      if count ≠ 0 then setByte m (dst + l) (if val then m (dst + l) ||| highMask count else m (dst + l) &&& lowMask count)
      else m

/-! ## The finished copy -/

/-- The bits of memory with a run of bits copied. -/
def copied (m : Memory) (D S : Int) (n : Nat) (i : Int) : Bool := if D ≤ i ∧ i < D + n then bit m (i - D + S) else bit m i

/-- Two runs of as many bits that have none in common. -/
def Apart (D S : Int) (n : Nat) : Prop := D + n ≤ S ∨ S + n ≤ D

/-- The low bits of the accumulator are those before an address. -/
def Carries (f : Int → Bool) (acc : BitVec 64) (b : Nat) (hi : Int) : Prop := ∀ k < b, acc.getLsbD k = f (hi - 1 - k)

/-- Some more bits. -/
theorem Carries.more {f : Int → Bool} {acc x : BitVec 64} {b s : Nat} {hi : Int} (h : Carries f acc b hi)
    (hx : ∀ k, x.getLsbD k = (decide (k < s) && f (hi + s - 1 - k))) (hroom : b + s ≤ 64) :
    Carries f (acc <<< s ||| x) (b + s) (hi + s) := by
  intro k hk
  rw [BitVec.getLsbD_or, BitVec.getLsbD_shiftLeft, hx]
  by_cases hlow : k < s
  · simp [hlow]
  · rw [h (k - s) (by omega), show hi - 1 - ((k - s : Nat) : Int) = hi + s - 1 - k by omega]
    simp [hlow, show k < 64 by omega]

section

variable {m₀ m : Memory} {D S lo hi : Int} {n : Nat} (hapart : Apart D S n)

/-- What lies outside the target is as it was, whatever of the copy is done. -/
theorem bit_of_copied (h : Sets m₀ m lo hi (copied m₀ D S n)) {i : Int} (hi' : i < D ∨ D + n ≤ i) : bit m i = bit m₀ i := by
  rw [h i]
  split_ifs with hin
  · rw [copied, if_neg (by omega)]
  · rfl

include hapart in
/-- So the source is. -/
theorem bit_source (h : Sets m₀ m lo hi (copied m₀ D S n)) {i : Int} (h0 : S ≤ i) (h1 : i < S + n) :
    bit m i = copied m₀ D S n (i - S + D) := by
  unfold Apart at hapart
  rw [bit_of_copied h (by omega), copied, if_pos (by omega)]
  congr 1
  omega

/-- A copy is done when all of its bits are set. -/
theorem sets_of_copied (h : Sets m₀ m lo hi (copied m₀ D S n)) (h0 : lo ≤ D) (h1 : D + n ≤ hi) :
    Sets m₀ m D (D + n) fun i => bit m₀ (i - D + S) := by
  refine (h.narrow h0 h1 fun i _ _ hout => ?_).congr fun i hlo hhi => ?_
  · rw [copied, if_neg (by omega)]
  · rw [copied, if_pos ⟨hlo, hhi⟩]

include hapart in
/-- A byte mixed from two, where the mask tells the bits of the target. -/
theorem sets_mixByte (h : Sets m₀ m lo hi (copied m₀ D S n)) (p q : Int) (mask : BitVec 8) (hpq : 8 * q - S = 8 * p - D)
    (hmask : ∀ k : Nat, k < 8 → mask.getLsbD k = decide (D ≤ 8 * p + 7 - k ∧ 8 * p + 7 - k < D + n)) :
    Sets m (setByte m p (mixByte (m p) (m q) mask)) (8 * p) (8 * p + 8) (copied m₀ D S n) := by
  refine (sets_setByte m p _).congr fun i h0 h1 => ?_
  have hk : (8 * p + 7 - i).toNat < 8 := by omega
  have hi : 8 * p + 7 - ((8 * p + 7 - i).toNat : Int) = i := by omega
  rw [getLsbD_mixByte _ _ _ hk, getLsbD_byte m p hk, getLsbD_byte m q hk, hmask _ hk, hi]
  by_cases hin : D ≤ i ∧ i < D + n
  · rw [decide_eq_true hin, if_pos rfl, bit_source hapart h (by omega) (by omega)]
    congr 1
    omega
  · rw [decide_eq_false hin, if_neg Bool.false_ne_true, bit_of_copied h (by omega), copied, if_neg hin]

include hapart in
/-- Whole bytes of the target. -/
theorem sets_copyBytes_of (h : Sets m₀ m lo hi (copied m₀ D S n)) (p q : Int) (l : Nat) (hpq : 8 * q - S = 8 * p - D)
    (h0 : D ≤ 8 * p) (h1 : 8 * p + 8 * l ≤ D + n) :
    Sets m (copyBytes m p q l) (8 * p) (8 * p + 8 * l) (copied m₀ D S n) := by
  refine (sets_copyBytes m p q l).congr fun i hlo hhi => ?_
  rw [bit_source hapart h (by omega) (by omega)]
  congr 1
  omega

/-- A copy between the same offsets. -/
theorem copyAligned_sets {dst src : Int} {offs : Nat} (hoffs : offs < 8) (hn : 0 < n)
    (hapart : Apart (8 * dst + offs) (8 * src + offs) n) :
    Sets m₀ (copyAligned m₀ dst src offs (n + offs)) (8 * dst + offs) (8 * dst + offs + n)
      fun i => bit m₀ (i - (8 * dst + offs) + (8 * src + offs)) := by
  generalize hD : 8 * dst + (offs : Int) = D at *
  generalize hS : 8 * src + (offs : Int) = S at *
  have hstart : Sets m₀ m₀ (8 * dst) (8 * dst) (copied m₀ D S n) := Sets.rfl
  unfold copyAligned
  by_cases hshort : n + offs < 8
  · rw [if_pos hshort]
    refine sets_of_copied (sets_mixByte hapart hstart _ _ _ (by omega) fun k hk => ?_) (by omega) (by omega)
    rw [BitVec.getLsbD_and, getLsbD_lowMask, getLsbD_highMask (by omega) hk, ← Bool.decide_and, decide_eq_decide]
    omega
  · rw [if_neg hshort]
    -- the whole bytes and the end of the first one
    generalize hm : (if offs = 0 then copyBytes m₀ dst src ((n + offs) / 8)
      else copyBytes (setByte m₀ dst (mixByte (m₀ dst) (m₀ src) (lowMask offs))) (dst + 1) (src + 1) ((n + offs) / 8 - 1)) = m
    have hbulk : Sets m₀ m (8 * dst) (8 * (dst + ((n + offs) / 8 : Nat))) (copied m₀ D S n) := by
      rw [← hm]
      split_ifs with hzero
      · have := sets_copyBytes_of hapart hstart dst src ((n + offs) / 8) (by omega) (by omega) (by omega)
        rwa [mul_add]
      · have hfirst := sets_mixByte hapart hstart dst src (lowMask offs) (by omega) (fun k hk => by
          rw [getLsbD_lowMask, decide_eq_decide]
          omega)
        have hrest := sets_copyBytes_of hapart hfirst (dst + 1) (src + 1) ((n + offs) / 8 - 1) (by omega)
          (by omega) (by omega)
        rw [show 8 * (dst + 1) + 8 * (((n + offs) / 8 - 1 : Nat) : Int) = 8 * (dst + ((n + offs) / 8 : Nat)) by omega,
          show 8 * (dst + 1) = 8 * dst + 8 by omega] at hrest
        exact hfirst.trans hrest (by omega) (by omega)
    dsimp only
    rw [hm]
    split_ifs with hrest
    · have hlast := sets_mixByte hapart hbulk (dst + ((n + offs) / 8 : Nat)) (src + ((n + offs) / 8 : Nat))
        (highMask ((n + offs) % 8)) (by omega) (fun k hk => by
          rw [getLsbD_highMask (by omega) hk, decide_eq_decide]
          omega)
      exact sets_of_copied (hbulk.trans hlast (by omega) (by omega)) (by omega) (by omega)
    · exact sets_of_copied hbulk (by omega) (by omega)

end

/-! ## Copies through the accumulator -/

/-- What is stored and what is carried belong to the finished copy, and the source stands at the next bits. -/
structure Copying (m₀ : Memory) (D S : Int) (n : Nat) (lo : Int) (m : Memory) (dst src : Int) (acc : BitVec 64) (b count : Nat) :
    Prop where
  sets : Sets m₀ m lo (8 * dst) (copied m₀ D S n)
  carries : Carries (copied m₀ D S n) acc b (8 * dst + b)
  place : 8 * src - S + D = 8 * dst + b
  rest : 8 * dst + b + count = D + n
  start : D ≤ 8 * dst + b
  left : lo ≤ 8 * dst

section

variable {m₀ m : Memory} {D S lo dst src : Int} {n b count : Nat} {acc : BitVec 64} (hapart : Apart D S n)

include hapart

/-- The next bits of the source are those of the copy behind what is carried. -/
theorem Copying.bit_next (h : Copying m₀ D S n lo m dst src acc b count) {i : Int} (h0 : 0 ≤ i) (h1 : i < count) :
    bit m (8 * src + i) = copied m₀ D S n (8 * dst + b + i) := by
  have hplace := h.place
  have hrest := h.rest
  have hstart := h.start
  rw [bit_source hapart h.sets (by omega) (by omega)]
  congr 1
  omega

/-- Bits that are read go below the carried ones. -/
theorem Copying.carries_more (h : Copying m₀ D S n lo m dst src acc b count) {s : Nat} {x : BitVec 64} (hs : s ≤ count)
    (hroom : b + s ≤ 64) (hx : ∀ k, x.getLsbD k = (decide (k < s) && bit m (8 * src + s - 1 - k))) :
    Carries (copied m₀ D S n) (acc <<< s ||| x) (b + s) (8 * dst + (b + s : Nat)) := by
  rw [Nat.cast_add, ← Int.add_assoc]
  refine h.carries.more (fun k => ?_) hroom
  rw [hx]
  by_cases hk : k < s
  · rw [show 8 * src + (s : Int) - 1 - k = 8 * src + (s - 1 - k) by omega, h.bit_next hapart (by omega) (by omega)]
    congr 2
    omega
  · rw [decide_eq_false hk, Bool.false_and, Bool.false_and]

omit hapart in
theorem getLsbD_setWidth_byte (m : Memory) (p : Int) (k : Nat) :
    ((m p).setWidth 64).getLsbD k = (decide (k < 8) && bit m (8 * p + (8 : Nat) - 1 - k)) := by
  rw [BitVec.getLsbD_setWidth]
  by_cases hk : k < 8
  · rw [getLsbD_byte m p hk, decide_eq_true hk, decide_eq_true (by omega)]
    congr 2
    omega
  · rw [BitVec.getLsbD_of_ge _ _ (not_lt.1 hk), decide_eq_false hk, Bool.and_false, Bool.false_and]

omit hapart in
/-- Bits above the last `b` carried ones are stored as bytes. -/
theorem Carries.sets_store {f : Int → Bool} {l w : Nat} (h : Carries f acc (b + 8 * l) (8 * dst + (b + 8 * l : Nat)))
    (hw : 8 * l ≤ w) : Sets m (store m dst ((acc >>> b).setWidth w) l) (8 * dst) (8 * dst + 8 * l) f := by
  refine (Lib.BitMemory.sets_store m dst _ l).congr fun i h0 h1 => ?_
  rw [BitVec.getLsbD_setWidth, decide_eq_true (by omega), Bool.true_and, BitVec.getLsbD_ushiftRight, h _ (by omega)]
  congr 1
  omega

omit hapart in
theorem Carries.sets_setByte {f : Int → Bool} (h : Carries f acc (b + 8) (8 * dst + (b + 8 : Nat))) :
    Sets m (setByte m dst ((acc >>> b).setWidth 8)) (8 * dst) (8 * dst + 8) f := by
  refine (Lib.BitMemory.sets_setByte m dst _).congr fun i h0 h1 => ?_
  rw [BitVec.getLsbD_setWidth, decide_eq_true (by omega), Bool.true_and, BitVec.getLsbD_ushiftRight, h _ (by omega)]
  congr 1
  omega

omit hapart in
/-- Fewer bits are carried as well. -/
theorem Carries.fewer {f : Int → Bool} {b' : Nat} {hi : Int} (h : Carries f acc b hi) (hle : b' ≤ b) : Carries f acc b' hi :=
  fun k hk => h k (by omega)

/-- Words are read and stored while the carried bits stay as many. -/
theorem copyWords_copying (h : Copying m₀ D S n lo m dst src acc b count) (hb : b ≤ 15) :
    Copying m₀ D S n lo (copyWords m dst src acc b count).1 (copyWords m dst src acc b count).2.1
        (copyWords m dst src acc b count).2.2.1 (copyWords m dst src acc b count).2.2.2.1 b (copyWords m dst src acc b count).2.2.2.2 ∧
      (copyWords m dst src acc b count).2.2.2.2 < 32 := by
  fun_induction copyWords m dst src acc b count with
  | case1 m dst src acc count hcount acc' ih =>
    have hmore : Carries (copied m₀ D S n) acc' (b + 8 * 4) (8 * dst + (b + 8 * 4 : Nat)) :=
      h.carries_more hapart hcount (by omega) fun k => by
        rw [BitVec.getLsbD_setWidth, getLsbD_load]
        by_cases hk : k < 32
        · rw [decide_eq_true hk, decide_eq_true (by omega : k < 64)]
          congr 1
        · rw [decide_eq_false hk]
          simp
    have hstore := hmore.sets_store (m := m) (w := 32) (by omega)
    obtain ⟨hsets, -, hplace, hrest, hstart, hleft⟩ := h
    refine ih ⟨?_, ?_, by omega, by omega, by omega, by omega⟩
    · exact hsets.trans (by rw [mul_add]; exact hstore) hleft (by omega)
    · convert hmore.fewer (Nat.le_add_right b _) using 1
      omega
  | case2 m dst src acc count hcount => exact ⟨h, not_le.1 hcount⟩

/-- Bytes are read until less than one is left. -/
theorem takeBytes_copying (h : Copying m₀ D S n lo m dst src acc b count) (hroom : b + count ≤ 64) :
    Copying m₀ D S n lo m dst (takeBytes m src acc b count).1 (takeBytes m src acc b count).2.1
        (takeBytes m src acc b count).2.2.1 (takeBytes m src acc b count).2.2.2 ∧
      (takeBytes m src acc b count).2.2.2 < 8 ∧ (takeBytes m src acc b count).2.2.1 ≤ b + count := by
  fun_induction takeBytes m src acc b count with
  | case1 src acc b count hcount ih =>
    have hmore := h.carries_more hapart hcount (by omega) (getLsbD_setWidth_byte m src)
    obtain ⟨hsets, -, hplace, hrest, hstart, hleft⟩ := h
    obtain ⟨hnext, hless, hle⟩ := ih ⟨hsets, hmore, by omega, by omega, by omega, hleft⟩ (by omega)
    exact ⟨hnext, hless, by omega⟩
  | case2 src acc b count hcount => exact ⟨h, not_le.1 hcount, Nat.le_add_right b count⟩

omit hapart in
/-- Bytes are stored until less than one is carried. -/
theorem putBytes_sets {f : Int → Bool} (hsets : Sets m₀ m lo (8 * dst) f) (h : Carries f acc b (8 * dst + b)) (hleft : lo ≤ 8 * dst) :
    Sets m₀ (putBytes m dst acc b).1 lo (8 * (putBytes m dst acc b).2.1) f ∧ (putBytes m dst acc b).2.2 < 8 ∧
      8 * (putBytes m dst acc b).2.1 + ((putBytes m dst acc b).2.2 : Int) = 8 * dst + b ∧ lo ≤ 8 * (putBytes m dst acc b).2.1 := by
  fun_induction putBytes m dst acc b with
  | case1 m dst b hb ih =>
    obtain ⟨c, rfl⟩ := Nat.exists_eq_add_of_le' hb
    rw [Nat.add_sub_cancel] at ih ⊢
    have hbyte := h.sets_setByte (m := m)
    obtain ⟨hnext, hless, hend, hle⟩ := ih (hsets.trans (by rw [mul_add]; exact hbyte) hleft (by omega))
      (by
        convert h.fewer (Nat.le_add_right c 8) using 1
        omega) (by omega)
    exact ⟨hnext, hless, by omega, hle⟩
  | case2 m dst b hb => exact ⟨hsets, not_le.1 hb, rfl, hleft⟩

/-- All bits of the source end up stored or carried. -/
theorem takeBits_spec {dstOffs srcOffs : Nat} (hS : S = 8 * src + srcOffs) (hD : D = 8 * dst + dstOffs)
    (hsrcOffs : srcOffs < 8) (hdstOffs : dstOffs < 8) (h : Carries (copied m₀ D S n) acc dstOffs D) {m' : Memory} {dst' : Int}
    {acc' : BitVec 64} {b' : Nat} (hres : takeBits m₀ dst src acc dstOffs srcOffs n = (m', dst', acc', b')) :
    Sets m₀ m' (8 * dst) (8 * dst') (copied m₀ D S n) ∧ Carries (copied m₀ D S n) acc' b' (8 * dst' + b') ∧
      8 * dst' + b' = D + n ∧ 8 * dst ≤ 8 * dst' := by
  have hstart : Sets m₀ m₀ (8 * dst) (8 * dst) (copied m₀ D S n) := Sets.rfl
  -- the bits of the first byte, down to the last `s` of them
  have hfirst : ∀ {s cut : Nat}, s ≤ n → srcOffs + s + cut = 8 →
      Carries (copied m₀ D S n) (acc <<< s ||| ((m₀ src &&& lowMask srcOffs) >>> cut).setWidth 64) (dstOffs + s) (D + s) := by
    intro s cut hs hcut
    refine h.more (fun k => ?_) (by omega)
    rw [BitVec.getLsbD_setWidth, BitVec.getLsbD_ushiftRight, BitVec.getLsbD_and, getLsbD_lowMask]
    by_cases hk : k < s
    · rw [getLsbD_byte m₀ src (by omega), decide_eq_true hk, decide_eq_true (by omega : k < 64),
        decide_eq_true (by omega : cut + k + srcOffs < 8), bit_source hapart hstart (by omega) (by omega), Bool.and_true]
      congr 2
      omega
    · rw [decide_eq_false hk, decide_eq_false (by omega : ¬cut + k + srcOffs < 8), Bool.and_false, Bool.and_false, Bool.false_and]
  unfold takeBits at hres
  dsimp only at hres
  by_cases hshort : n + srcOffs < 8
  · rw [if_pos hshort] at hres
    cases hres
    have hcarries := @hfirst n (8 - (n + srcOffs)) (Nat.le_refl n) (by omega)
    rw [show D + (n : Int) = 8 * dst + (dstOffs + n : Nat) by omega] at hcarries
    exact ⟨hstart, hcarries, by omega, by omega⟩
  · rw [if_neg hshort] at hres
    have hcarries := @hfirst (8 - srcOffs) 0 (by omega) (by omega)
    rw [BitVec.ushiftRight_zero] at hcarries
    have hcopying : Copying m₀ D S n (8 * dst) m₀ dst (src + 1)
        (acc <<< (8 - srcOffs) ||| (m₀ src &&& lowMask srcOffs).setWidth 64) (dstOffs + (8 - srcOffs)) (n + srcOffs - 8) :=
      ⟨hstart, by convert hcarries using 1; omega, by omega, by omega, by omega, by omega⟩
    obtain ⟨hwords, hless⟩ := copyWords_copying hapart hcopying (by omega)
    generalize copyWords m₀ dst (src + 1) (acc <<< (8 - srcOffs) ||| (m₀ src &&& lowMask srcOffs).setWidth 64)
      (dstOffs + (8 - srcOffs)) (n + srcOffs - 8) = words at hwords hless hres
    obtain ⟨m1, dst1, src1, acc1, count1⟩ := words
    dsimp only at hwords hless hres
    obtain ⟨hbytes, hfew, hbound⟩ := takeBytes_copying hapart hwords (by omega)
    generalize takeBytes m1 src1 acc1 (dstOffs + (8 - srcOffs)) count1 = bytes at hbytes hfew hbound hres
    obtain ⟨src2, acc2, b2, count2⟩ := bytes
    dsimp only at hbytes hfew hbound hres
    split_ifs at hres with hmore
    · cases hres
      have hlast := hbytes.carries_more hapart (s := count2) (x := (m' src2 >>> (8 - count2)).setWidth 64) (Nat.le_refl _)
        (by omega) fun k => by
          rw [BitVec.getLsbD_setWidth, BitVec.getLsbD_ushiftRight]
          by_cases hk : k < count2
          · rw [getLsbD_byte m' src2 (by omega), decide_eq_true hk, decide_eq_true (by omega)]
            congr 2
            omega
          · rw [decide_eq_false hk, BitVec.getLsbD_of_ge _ _ (by omega), Bool.and_false, Bool.false_and]
      obtain ⟨hsets, -, hplace, hrest, hplaced, hleft⟩ := hbytes
      exact ⟨hsets, hlast, by omega, hleft⟩
    · cases hres
      obtain ⟨hsets, hcarried, hplace, hrest, hplaced, hleft⟩ := hbytes
      exact ⟨hsets, hcarried, by omega, hleft⟩

/-- A copy between different offsets. -/
theorem copyShifted_sets {dstOffs srcOffs : Nat} (hS : S = 8 * src + srcOffs) (hD : D = 8 * dst + dstOffs)
    (hsrcOffs : srcOffs < 8) (hdstOffs : dstOffs < 8) :
    Sets m₀ (copyShifted m₀ dst src dstOffs srcOffs n) D (D + n) fun i => bit m₀ (i - D + S) := by
  have hcarries : Carries (copied m₀ D S n) (if dstOffs ≠ 0 then (m₀ dst >>> (8 - dstOffs)).setWidth 64 else 0) dstOffs D := by
    intro k hk
    rw [if_pos (by omega), BitVec.getLsbD_setWidth, decide_eq_true (by omega), Bool.true_and, BitVec.getLsbD_ushiftRight,
      getLsbD_byte m₀ dst (by omega), copied, if_neg (by omega)]
    congr 1
    omega
  unfold copyShifted
  dsimp only
  generalize hbits : takeBits m₀ dst src (if dstOffs ≠ 0 then (m₀ dst >>> (8 - dstOffs)).setWidth 64 else 0) dstOffs srcOffs n =
    bits
  obtain ⟨m1, dst1, acc1, b1⟩ := bits
  obtain ⟨hsets, hcarried, hend, hleft⟩ := takeBits_spec hapart hS hD hsrcOffs hdstOffs hcarries hbits
  obtain ⟨hput, hfew, hend', hleft'⟩ := putBytes_sets hsets hcarried hleft
  have hlow : ∀ k < (putBytes m1 dst1 acc1 b1).2.2, acc1.getLsbD k = copied m₀ D S n (D + n - 1 - k) := by
    intro k hk
    rw [← hend]
    exact hcarried k (by omega)
  dsimp only
  generalize putBytes m1 dst1 acc1 b1 = put at hput hfew hend' hleft' hlow
  obtain ⟨m2, dst2, b2⟩ := put
  dsimp only at hput hfew hend' hleft' hlow ⊢
  split_ifs with hpos
  · have hbyte : Sets m2 (setByte m2 dst2 (m2 dst2 &&& lowMask b2 ||| acc1.setWidth 8 <<< (8 - b2))) (8 * dst2) (8 * dst2 + 8)
        (copied m₀ D S n) := by
      refine (Lib.BitMemory.sets_setByte m2 dst2 _).congr fun i h0 h1 => ?_
      rw [BitVec.getLsbD_or, BitVec.getLsbD_and, getLsbD_lowMask, BitVec.getLsbD_shiftLeft, BitVec.getLsbD_setWidth]
      by_cases hin : i < D + n
      · obtain ⟨k, hk⟩ : ∃ k, (8 * dst2 + 7 - i).toNat = k + (8 - b2) := Nat.exists_eq_add_of_le' (by omega)
        rw [hk, decide_eq_false (by omega : ¬k + (8 - b2) + b2 < 8), decide_eq_false (by omega : ¬k + (8 - b2) < 8 - b2),
          decide_eq_true (by omega : k + (8 - b2) < 8), Nat.add_sub_cancel, decide_eq_true (by omega : k < 8), hlow k (by omega)]
        simp only [Bool.and_false, Bool.false_or, Bool.not_false, Bool.true_and]
        congr 1
        omega
      · have hk : (8 * dst2 + 7 - i).toNat < 8 := by omega
        rw [decide_eq_true (by omega : (8 * dst2 + 7 - i).toNat + b2 < 8), getLsbD_byte m2 dst2 hk, decide_eq_true (by omega : (8 * dst2 + 7 - i).toNat < 8 - b2),
          bit_of_copied hput (by omega), copied, if_neg (by omega)]
        simp only [Bool.and_true, Bool.not_true, Bool.and_false, Bool.false_and, Bool.or_false]
        congr 1
        omega
    exact sets_of_copied (hput.trans hbyte hleft' (by omega)) (by omega) (by omega)
  · exact sets_of_copied hput (by omega) (by omega)

end

/-- `bits_memcpy` copies the bits and sets no others. -/
theorem bitsMemcpy_sets (m : Memory) {dst dstOffs src srcOffs : Int} {count : Nat}
    (hapart : Apart (8 * dst + dstOffs) (8 * src + srcOffs) count) :
    Sets m (bitsMemcpy m dst dstOffs src srcOffs count) (8 * dst + dstOffs) (8 * dst + dstOffs + count)
      fun i => bit m (i - (8 * dst + dstOffs) + (8 * src + srcOffs)) := by
  unfold bitsMemcpy
  obtain rfl | hpos := Nat.eq_zero_or_pos count
  · rw [if_pos rfl, Nat.cast_zero, Int.add_zero]
    exact Sets.rfl
  · rw [if_neg hpos.ne']
    have hD : 8 * dst + dstOffs = 8 * (dst + dstOffs / 8) + (dstOffs % 8).toNat := by omega
    have hS : 8 * src + srcOffs = 8 * (src + srcOffs / 8) + (srcOffs % 8).toNat := by omega
    dsimp only
    split_ifs with hsame
    · rw [hD, hS, hsame] at hapart ⊢
      exact copyAligned_sets (by omega) hpos hapart
    · exact copyShifted_sets hapart hS hD (by omega) (by omega)

/-! ## Filling -/

/-- A byte of which the masked bits become `val`. -/
theorem sets_fillByte {m : Memory} {p lo hi : Int} {val : Bool} {mask : BitVec 8} (h0 : 8 * p ≤ lo) (h1 : hi ≤ 8 * p + 8)
    (hmask : ∀ k : Nat, k < 8 → mask.getLsbD k = decide (lo ≤ 8 * p + 7 - k ∧ 8 * p + 7 - k < hi)) :
    Sets m (setByte m p (if val then m p ||| mask else m p &&& ~~~mask)) lo hi fun _ => val := by
  have hbits : ∀ i, 8 * p ≤ i → i < 8 * p + 8 → (if val then m p ||| mask else m p &&& ~~~mask).getLsbD (8 * p + 7 - i).toNat =
      if lo ≤ i ∧ i < hi then val else bit m i := by
    intro i hlo hhi
    obtain ⟨k, hk⟩ : ∃ k : Nat, 8 * p + 7 - i = k := ⟨(8 * p + 7 - i).toNat, by omega⟩
    have hless : k < 8 := by omega
    rw [hk, Int.toNat_natCast, apply_ite (fun b : BitVec 8 => b.getLsbD k), BitVec.getLsbD_or, BitVec.getLsbD_and,
      BitVec.getLsbD_not, hmask k hless, getLsbD_byte m p hless, show 8 * p + 7 - (k : Int) = i by omega, decide_eq_true hless]
    by_cases hin : lo ≤ i ∧ i < hi
    · cases val <;> simp [hin]
    · cases val <;> simp [hin]
  refine ((sets_setByte m p _).congr hbits).narrow h0 h1 (fun i _ _ hout => ?_) |>.congr fun i hlo hhi => ?_
  · rw [if_neg (by omega)]
  · rw [if_pos ⟨hlo, hhi⟩]

theorem and_highMask (b : BitVec 8) {n : Nat} (hn : n ≤ 8) : b &&& highMask n = b &&& ~~~lowMask n := by
  refine BitVec.eq_of_getLsbD_eq fun k hk => ?_
  rw [BitVec.getLsbD_and, BitVec.getLsbD_and, getLsbD_highMask hn hk, BitVec.getLsbD_not, getLsbD_lowMask, decide_eq_true hk,
    Bool.true_and, ← decide_not]
  congr 1
  rw [decide_eq_decide]
  omega

theorem and_lowMask (b : BitVec 8) {n : Nat} (hn : n ≤ 8) : b &&& lowMask n = b &&& ~~~highMask n := by
  refine BitVec.eq_of_getLsbD_eq fun k hk => ?_
  rw [BitVec.getLsbD_and, BitVec.getLsbD_and, getLsbD_lowMask, BitVec.getLsbD_not, getLsbD_highMask hn hk, decide_eq_true hk,
    Bool.true_and, ← decide_not]
  congr 1
  rw [decide_eq_decide]
  omega

/-- `bits_memset` fills the bits and sets no others. -/
theorem bitsMemset_sets (m : Memory) (dst dstOffs : Int) (val : Bool) (count : Nat) :
    Sets m (bitsMemset m dst dstOffs val count) (8 * dst + dstOffs) (8 * dst + dstOffs + count) fun _ => val := by
  unfold bitsMemset
  obtain rfl | hpos := Nat.eq_zero_or_pos count
  · rw [if_pos rfl, Nat.cast_zero, Int.add_zero]
    exact Sets.rfl
  rw [if_neg hpos.ne']
  dsimp only
  obtain ⟨p, hp⟩ : ∃ p, p = dst + dstOffs / 8 := ⟨_, rfl⟩
  obtain ⟨offs, hoffs⟩ : ∃ offs, offs = (dstOffs % 8).toNat := ⟨_, rfl⟩
  rw [show 8 * dst + dstOffs = 8 * p + offs by omega, ← hp, ← hoffs]
  by_cases hshort : count + offs ≤ 8
  · rw [if_pos hshort]
    refine sets_fillByte (by omega) (by omega) fun k hk => ?_
    rw [BitVec.getLsbD_ushiftRight]
    by_cases hlow : offs + k < 8
    · rw [getLsbD_highMask (by omega) hlow, decide_eq_decide]
      omega
    · rw [BitVec.getLsbD_of_ge _ _ (not_lt.1 hlow)]
      exact (decide_eq_false (by omega)).symm
  · rw [if_neg hshort, and_highMask (m p) (show offs ≤ 8 by omega), and_lowMask _ (show (count + offs) % 8 ≤ 8 by omega)]
    have hfirst : Sets m (setByte m p (if val then m p ||| lowMask offs else m p &&& ~~~lowMask offs)) (8 * p + offs) (8 * p + 8)
        fun _ => val := sets_fillByte (by omega) (by omega) fun k hk => by
      rw [getLsbD_lowMask, decide_eq_decide]
      omega
    have hfill : ∀ m', Sets m' (fillBytes m' (p + 1) (if val then 0xff#8 else 0#8) ((count + offs) / 8 - 1)) (8 * p + 8)
        (8 * (p + ((count + offs) / 8 : Nat))) fun _ => val := by
      intro m'
      have hbytes := (sets_fillBytes m' (p + 1) (if val then 0xff#8 else 0#8) ((count + offs) / 8 - 1)).congr
        (g := fun _ => val) fun i _ _ => by
          have hk : (7 - i % 8).toNat < 8 := by omega
          generalize (7 - i % 8).toNat = k at hk
          cases val
          · exact BitVec.getLsbD_zero
          · rw [if_pos rfl, show (0xff#8) = BitVec.allOnes 8 from rfl, BitVec.getLsbD_allOnes, decide_eq_true hk]
      rwa [show 8 * (p + 1) + 8 * (((count + offs) / 8 - 1 : Nat) : Int) = 8 * (p + ((count + offs) / 8 : Nat)) by omega,
        mul_add, mul_one] at hbytes
    have hbulk := hfirst.trans (hfill _) (by omega) (by omega)
    by_cases hrest : (count + offs) % 8 ≠ 0
    · rw [if_pos hrest]
      refine hbulk.trans (sets_fillByte (by omega) (by omega) fun k hk => ?_) (by omega) (by omega)
      rw [getLsbD_highMask (by omega) hk, decide_eq_decide]
      omega
    · rw [if_neg hrest]
      rwa [show 8 * (p + ((count + offs) / 8 : Nat)) = 8 * p + offs + count by omega] at hbulk

end TonWallet.Td.Bitstring
