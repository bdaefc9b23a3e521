/-
Words as runs of up to 64 bits (`bits_store_long_top`, `bits_load_long_top`): the top bits of a word at any offset within bytes.
-/
import TonWallet.Td.BitsCopy

namespace TonWallet.Td.Bitstring

open Lib.BitMemory

/-! ## Storing -/

/-- The first bytes of a word, the highest first. -/
def storeFirst (m : Memory) (p : Int) (v : BitVec 64) (n : Nat) : Memory :=
  fun a => if p ≤ a ∧ a < p + n then store m p v 8 a else m a

/-- Bytes of `z` from the place `p` down, as long as no bit below `q` is in them. -/
def putTop (m : Memory) (dst : Int) (z : BitVec 64) (q : Nat) (p : Int) : Memory × Int × Int :=
  if q ≤ p then putTop (setByte m dst ((z >>> p.toNat).setWidth 8)) (dst + 1) z q (p - 8) else (m, dst, p)
termination_by (p + 8 - q).toNat

/-- `bits_store_long_top`, where there are at most 64 bits. -/
def bitsStoreLongTop (m : Memory) (dst dstOffs : Int) (val : BitVec 64) (topBits : Nat) : Option Memory :=
  if 64 < topBits then none
  else if topBits = 0 then some m
  else
    let dst := dst + dstOffs / 8
    let offs := (dstOffs % 8).toNat
    if offs = 0 ∧ topBits % 8 = 0 then some (storeFirst m dst val (topBits / 8))
    else
      let z := (m dst &&& highMask offs).setWidth 64 <<< 56 ||| val >>> offs
      let topBits := topBits + offs
      if 64 < topBits then
        let m := store m dst z 8
        let z := val <<< (8 - offs)
        let mask := lowMask (topBits - 64)
        some (setByte m (dst + 8) (m (dst + 8) &&& mask ||| z.setWidth 8 &&& ~~~mask))
      else
        let q := 64 - topBits
        let (m, dst, p) := if q ≤ 32 then (store m dst ((z >>> 32).setWidth 32) 4, dst + 4, 24) else (m, dst, 56)
        let (m, dst, p) := putTop m dst z q p
        let topBits := p + 8 - q
        if 0 < topBits then
          let mask := lowMask topBits.toNat
          some (setByte m dst (m dst &&& mask ||| (z >>> p.toNat).setWidth 8 &&& ~~~mask))
        else some m

/-- `bits_load_long_top`; the bytes of `tmp` that are not loaded are anything. -/
def bitsLoadLongTop (m : Memory) (src srcOffs : Int) (topBits : Nat) (tmp : BitVec 64) : Option (BitVec 64) :=
  if 64 < topBits then none
  else if topBits = 0 then some 0
  else
    let src := src + srcOffs / 8
    let offs := (srcOffs % 8).toNat
    if offs + topBits ≤ 64 then
      let n := (offs + topBits + 7) / 8
      let tmp := load 64 m src n <<< (64 - 8 * n) ||| tmp &&& BitVec.allOnes 64 >>> (8 * n)
      some (tmp <<< offs &&& BitVec.allOnes 64 <<< (64 - topBits))
    else
      let z := load 64 m src 8 <<< offs ||| (m (src + 8) >>> (8 - offs)).setWidth 64
      some (z &&& BitVec.allOnes 64 <<< (64 - topBits))

/-- The bits of memory with the top bits of a word from an address on. -/
def written (m : Memory) (D : Int) (n : Nat) (val : BitVec 64) (i : Int) : Bool :=
  if D ≤ i ∧ i < D + n then val.getMsbD (i - D).toNat else bit m i

theorem sets_storeFirst (m : Memory) (p : Int) (v : BitVec 64) {n : Nat} (hn : n ≤ 8) :
    Sets m (storeFirst m p v n) (8 * p) (8 * p + 8 * n) fun i => v.getLsbD (8 * p + 63 - i).toNat := by
  intro i
  by_cases hin : p ≤ i / 8 ∧ i / 8 < p + n
  · have hbyte : bit (storeFirst m p v n) i = bit (store m p v 8) i := by
      unfold bit storeFirst
      rw [if_pos hin]
    rw [hbyte, (sets_store m p v 8).bit_of_inside (by omega) (by omega), if_pos (by omega)]
    congr 1
    omega
  · rw [if_neg (by omega)]
    unfold bit storeFirst
    rw [if_neg hin]

section

variable {m₀ m : Memory} {D : Int} {n : Nat} {val z : BitVec 64} {lo dst p base : Int} {q : Nat}

/-- Bytes of a word that holds what is to be written. -/
theorem putTop_sets (hz : ∀ k, q ≤ k → k < 64 → z.getLsbD k = written m₀ D n val (base + 63 - k)) (hp : p ≤ 56) (hq : q ≤ p + 8)
    (hbase : 8 * dst + p = base + 56) (h : Sets m₀ m lo (8 * dst) (written m₀ D n val)) (hleft : lo ≤ 8 * dst) :
    Sets m₀ (putTop m dst z q p).1 lo (8 * (putTop m dst z q p).2.1) (written m₀ D n val) ∧ (putTop m dst z q p).2.2 < q ∧
      q ≤ (putTop m dst z q p).2.2 + 8 ∧ 8 * (putTop m dst z q p).2.1 + (putTop m dst z q p).2.2 = base + 56 ∧
      lo ≤ 8 * (putTop m dst z q p).2.1 := by
  fun_induction putTop m dst z q p with
  | case1 m dst p hqp ih =>
    have hbyte : Sets m (setByte m dst ((z >>> p.toNat).setWidth 8)) (8 * dst) (8 * dst + 8) (written m₀ D n val) := by
      refine (sets_setByte m dst _).congr fun i h0 h1 => ?_
      rw [BitVec.getLsbD_setWidth, decide_eq_true (by omega), Bool.true_and, BitVec.getLsbD_ushiftRight,
        hz _ (by omega) (by omega)]
      congr 1
      omega
    obtain ⟨hnext, hless, hle, hend, hleft'⟩ := ih (by omega) (by omega) (by omega)
      (h.trans (by rw [mul_add]; exact hbyte) hleft (by omega)) (by omega)
    exact ⟨hnext, hless, hle, hend, hleft'⟩
  | case2 m dst p hstop => exact ⟨h, not_le.1 hstop, hq, hbase, hleft⟩

/-- Words are written when all of their bits are. -/
theorem sets_of_written {hi : Int} (h : Sets m₀ m lo hi (written m₀ D n val)) (h0 : lo ≤ D) (h1 : D + n ≤ hi) :
    Sets m₀ m D (D + n) fun i => val.getMsbD (i - D).toNat := by
  refine (h.narrow h0 h1 fun i _ _ hout => ?_).congr fun i hlo hhi => ?_
  · rw [written, if_neg (by omega)]
  · rw [written, if_pos ⟨hlo, hhi⟩]

/-- The last byte takes its top bits from the word and keeps the others. -/
theorem sets_lastByte {t : Nat} {v : BitVec 8} (hout : ∀ i, 8 * p ≤ i → bit m i = bit m₀ i) (hend : D + n = 8 * p + t)
    (hv : ∀ k : Nat, k < 8 → 8 ≤ k + t → v.getLsbD k = written m₀ D n val (8 * p + 7 - k)) :
    Sets m (setByte m p (m p &&& lowMask t ||| v &&& ~~~lowMask t)) (8 * p) (8 * p + 8) (written m₀ D n val) := by
  refine (sets_setByte m p _).congr fun i h0 h1 => ?_
  obtain ⟨k, hk⟩ : ∃ k : Nat, 8 * p + 7 - i = k := ⟨(8 * p + 7 - i).toNat, by omega⟩
  have hless : k < 8 := by omega
  rw [hk, Int.toNat_natCast, BitVec.getLsbD_or, BitVec.getLsbD_and, BitVec.getLsbD_and, BitVec.getLsbD_not, getLsbD_lowMask,
    getLsbD_byte m p hless, decide_eq_true hless, Bool.true_and, hout _ (by omega), show 8 * p + 7 - (k : Int) = i by omega]
  by_cases hin : i < D + n
  · rw [decide_eq_false (by omega : ¬k + t < 8), hv k hless (by omega), show 8 * p + 7 - (k : Int) = i by omega]
    simp
  · rw [decide_eq_true (by omega : k + t < 8), written, if_neg (by omega)]
    simp

end

/-- `bits_store_long_top` stores the top bits and sets no others. -/
theorem bitsStoreLongTop_sets (m : Memory) (dst dstOffs : Int) (val : BitVec 64) {topBits : Nat} (htop : topBits ≤ 64) :
    ∃ m', bitsStoreLongTop m dst dstOffs val topBits = some m' ∧
      Sets m m' (8 * dst + dstOffs) (8 * dst + dstOffs + topBits) fun i => val.getMsbD (i - (8 * dst + dstOffs)).toNat := by
  unfold bitsStoreLongTop
  rw [if_neg (not_lt.2 htop)]
  obtain rfl | hpos := Nat.eq_zero_or_pos topBits
  · rw [if_pos rfl, Nat.cast_zero, Int.add_zero]
    exact ⟨m, rfl, Sets.rfl⟩
  rw [if_neg hpos.ne']
  dsimp only
  obtain ⟨p, hp⟩ : ∃ p, p = dst + dstOffs / 8 := ⟨_, rfl⟩
  obtain ⟨offs, hoffs⟩ : ∃ offs, offs = (dstOffs % 8).toNat := ⟨_, rfl⟩
  rw [show 8 * dst + dstOffs = 8 * p + offs by omega, ← hp, ← hoffs]
  have hless : offs < 8 := by omega
  by_cases hbytes : offs = 0 ∧ topBits % 8 = 0
  · rw [if_pos hbytes]
    refine ⟨_, rfl, ?_⟩
    have hfirst := sets_storeFirst m p val (n := topBits / 8) (by omega)
    rw [show 8 * p + (offs : Int) = 8 * p by omega]
    rw [show 8 * p + 8 * ((topBits / 8 : Nat) : Int) = 8 * p + topBits by omega] at hfirst
    refine hfirst.congr fun i h0 h1 => ?_
    rw [BitVec.getMsbD_eq_getLsbD, decide_eq_true (by omega), Bool.true_and]
    congr 1
    omega
  rw [if_neg hbytes]
  -- the word with the bits before it
  generalize hz : (m p &&& highMask offs).setWidth 64 <<< 56 ||| val >>> offs = z
  have hbits : ∀ k : Nat, k < 64 → 8 * p + 63 - k < 8 * p + offs + topBits →
      z.getLsbD k = written m (8 * p + offs) topBits val (8 * p + 63 - k) := by
    intro k hk hend
    rw [← hz, BitVec.getLsbD_or, BitVec.getLsbD_shiftLeft, BitVec.getLsbD_setWidth, BitVec.getLsbD_and,
      BitVec.getLsbD_ushiftRight, written]
    by_cases hbefore : 64 ≤ k + offs
    · rw [if_neg (by omega), getLsbD_highMask (by omega) (by omega), getLsbD_byte m p (by omega),
        BitVec.getLsbD_of_ge val _ (by omega), decide_eq_true (by omega : 8 ≤ k - 56 + offs), decide_eq_true hk,
        decide_eq_false (by omega : ¬k < 56), decide_eq_true (by omega : k - 56 < 64)]
      simp only [Bool.not_false, Bool.true_and, Bool.and_true, Bool.or_false]
      congr 1
      omega
    · rw [if_pos ⟨by omega, hend⟩, BitVec.getMsbD_eq_getLsbD,
        decide_eq_true (by omega : (8 * p + 63 - (k : Int) - (8 * p + offs)).toNat < 64), Bool.true_and,
        show 64 - 1 - (8 * p + 63 - (k : Int) - (8 * p + offs)).toNat = offs + k by omega]
      by_cases hk56 : k < 56
      · rw [decide_eq_true hk56]
        simp
      · rw [getLsbD_highMask (by omega) (by omega), decide_eq_false (by omega : ¬8 ≤ k - 56 + offs)]
        simp
  by_cases hlong : 64 < topBits + offs
  · rw [if_pos hlong]
    refine ⟨_, rfl, ?_⟩
    have hword : Sets m (store m p z 8) (8 * p) (8 * (p + 8)) (written m (8 * p + offs) topBits val) := by
      rw [mul_add]
      refine (sets_store m p z 8).congr fun i h0 h1 => ?_
      rw [hbits _ (by omega) (by omega)]
      congr 1
      omega
    have hlast := @sets_lastByte m _ (8 * p + offs) topBits val (p + 8) (topBits + offs - 64) ((val <<< (8 - offs)).setWidth 8)
      (fun i hi => hword.bit_of_outside (by omega)) (by omega) fun k hk hin => by
        rw [written, if_pos (by omega), BitVec.getLsbD_setWidth, BitVec.getLsbD_shiftLeft, BitVec.getMsbD_eq_getLsbD, decide_eq_true hk,
          decide_eq_true (by omega : k < 64), decide_eq_false (by omega : ¬k < 8 - offs),
          decide_eq_true (by omega : (8 * (p + 8) + 7 - (k : Int) - (8 * p + offs)).toNat < 64)]
        simp only [Bool.not_false, Bool.true_and]
        congr 1
        omega
    exact sets_of_written (hword.trans hlast (by omega) (by omega)) (by omega) (by omega)
  · rw [if_neg hlong]
    obtain ⟨q, hq⟩ : ∃ q, q = 64 - (topBits + offs) := ⟨_, rfl⟩
    rw [← hq]
    -- the four bytes that are stored at once
    generalize hhead : (if q ≤ 32 then (store m p ((z >>> 32).setWidth 32) 4, p + 4, (24 : Int)) else (m, p, 56)) = head
    obtain ⟨m1, p1, at1⟩ := head
    have hhead' : Sets m m1 (8 * p) (8 * p1) (written m (8 * p + offs) topBits val) ∧ 8 * p1 + at1 = 8 * p + 56 ∧ at1 ≤ 56 ∧
        q ≤ at1 + 8 ∧ 8 * p ≤ 8 * p1 := by
      split_ifs at hhead with hlow
      · cases hhead
        refine ⟨?_, by omega, by omega, by omega, by omega⟩
        rw [mul_add]
        refine (sets_store m p _ 4).congr fun i h0 h1 => ?_
        rw [BitVec.getLsbD_setWidth, decide_eq_true (by omega), Bool.true_and, BitVec.getLsbD_ushiftRight,
          hbits _ (by omega) (by omega)]
        congr 1
        omega
      · cases hhead
        exact ⟨Sets.rfl, by omega, by omega, by omega, by omega⟩
    obtain ⟨hset, hplace, hat, hatq, hleft⟩ := hhead'
    obtain ⟨hput, hfew, hmost, hend, hleft'⟩ :=
      @putTop_sets m m1 (8 * p + offs) topBits val z (8 * p) p1 at1 (8 * p) q (fun k hqk hk => hbits k hk (by omega)) hat hatq hplace
        hset hleft
    dsimp only
    generalize putTop m1 p1 z q at1 = put at hput hfew hmost hend hleft'
    obtain ⟨m2, p2, at2⟩ := put
    dsimp only at hput hfew hmost hend hleft' ⊢
    split_ifs with hrest
    · refine ⟨_, rfl, ?_⟩
      have hlast := @sets_lastByte m m2 (8 * p + offs) topBits val p2 (at2 + 8 - q).toNat ((z >>> at2.toNat).setWidth 8)
        (fun i hi => hput.bit_of_outside (by omega)) (by omega) fun k hk hin => by
          rw [BitVec.getLsbD_setWidth, decide_eq_true hk, Bool.true_and, BitVec.getLsbD_ushiftRight,
            hbits _ (by omega) (by omega)]
          congr 1
          omega
      exact sets_of_written (hput.trans hlast hleft' (by omega)) (by omega) (by omega)
    · exact ⟨m2, rfl, sets_of_written hput (by omega) (by omega)⟩

/-! ## Loading -/

/-- The low bits are cut off. -/
theorem getLsbD_topMask (v : BitVec 64) {n k : Nat} (hk : k < 64) :
    (v &&& BitVec.allOnes 64 <<< (64 - n)).getLsbD k = (decide (64 - n ≤ k) && v.getLsbD k) := by
  rw [BitVec.getLsbD_and, BitVec.getLsbD_shiftLeft, BitVec.getLsbD_allOnes, decide_eq_true hk, Bool.true_and,
    decide_eq_true (by omega : k - (64 - n) < 64), Bool.and_true, ← decide_not, decide_eq_decide.2 not_lt, Bool.and_comm]

/-- `bits_load_long_top` loads the bits as the top ones of a word that is zero below them. -/
theorem bitsLoadLongTop_spec (m : Memory) (src srcOffs : Int) {topBits : Nat} (tmp : BitVec 64) (htop : topBits ≤ 64) :
    ∃ v, bitsLoadLongTop m src srcOffs topBits tmp = some v ∧
      ∀ k < 64, v.getMsbD k = (decide (k < topBits) && bit m (8 * src + srcOffs + k)) := by
  unfold bitsLoadLongTop
  rw [if_neg (not_lt.2 htop)]
  obtain rfl | hpos := Nat.eq_zero_or_pos topBits
  · rw [if_pos rfl]
    exact ⟨0, rfl, fun k hk => BitVec.getMsbD_zero⟩
  rw [if_neg hpos.ne']
  dsimp only
  obtain ⟨p, hp⟩ : ∃ p, p = src + srcOffs / 8 := ⟨_, rfl⟩
  obtain ⟨offs, hoffs⟩ : ∃ offs, offs = (srcOffs % 8).toNat := ⟨_, rfl⟩
  rw [show 8 * src + srcOffs = 8 * p + offs by omega, ← hp, ← hoffs]
  have hless : offs < 8 := by omega
  split_ifs with hshort
  · refine ⟨_, rfl, fun k hk => ?_⟩
    rw [BitVec.getMsbD_eq_getLsbD, decide_eq_true hk, Bool.true_and, getLsbD_topMask _ (by omega)]
    by_cases hin : k < topBits
    · obtain ⟨n, hn⟩ : ∃ n, n = (offs + topBits + 7) / 8 := ⟨_, rfl⟩
      rw [← hn, decide_eq_true (by omega : 64 - topBits ≤ 64 - 1 - k), decide_eq_true hin, BitVec.getLsbD_shiftLeft,
        BitVec.getLsbD_or, BitVec.getLsbD_shiftLeft, getLsbD_load, BitVec.getLsbD_and, BitVec.getLsbD_ushiftRight,
        BitVec.getLsbD_allOnes, decide_eq_false (by omega : ¬8 * n + (64 - 1 - k - offs) < 64),
        decide_eq_false (by omega : ¬64 - 1 - k < offs), decide_eq_false (by omega : ¬64 - 1 - k - offs < 64 - 8 * n),
        decide_eq_true (by omega : 64 - 1 - k < 64), decide_eq_true (by omega : 64 - 1 - k - offs < 64),
        decide_eq_true (by omega : 64 - 1 - k - offs - (64 - 8 * n) < 64),
        decide_eq_true (by omega : 64 - 1 - k - offs - (64 - 8 * n) < 8 * n)]
      simp only [Bool.not_false, Bool.true_and, Bool.and_false, Bool.or_false]
      congr 1
      omega
    · rw [decide_eq_false (by omega : ¬64 - topBits ≤ 64 - 1 - k), decide_eq_false hin, Bool.false_and, Bool.false_and]
  · refine ⟨_, rfl, fun k hk => ?_⟩
    rw [BitVec.getMsbD_eq_getLsbD, decide_eq_true hk, Bool.true_and, getLsbD_topMask _ (by omega)]
    by_cases hin : k < topBits
    · rw [decide_eq_true (by omega : 64 - topBits ≤ 64 - 1 - k), decide_eq_true hin, BitVec.getLsbD_or, BitVec.getLsbD_shiftLeft,
        getLsbD_load, BitVec.getLsbD_setWidth, BitVec.getLsbD_ushiftRight, decide_eq_true (by omega : 64 - 1 - k < 64)]
      by_cases hlast : 64 - 1 - k < offs
      · rw [decide_eq_true hlast, getLsbD_byte m (p + 8) (by omega)]
        simp only [Bool.not_true, Bool.and_false, Bool.false_and, Bool.false_or, Bool.true_and]
        congr 1
        omega
      · rw [decide_eq_false hlast, BitVec.getLsbD_of_ge (m (p + 8)) _ (by omega),
          decide_eq_true (by omega : 64 - 1 - k - offs < 64)]
        simp only [Bool.not_false, Bool.true_and, Bool.or_false]
        congr 1
        omega
    · rw [decide_eq_false (by omega : ¬64 - topBits ≤ 64 - 1 - k), decide_eq_false hin, Bool.false_and, Bool.false_and]

end TonWallet.Td.Bitstring
