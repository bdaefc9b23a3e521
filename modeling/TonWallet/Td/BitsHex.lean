/-
Bits as hexadecimal digits and back (`bits_to_hex`, `parse_bitstring_hex_literal`). Bits that do not fill the last digit are
followed by a one and zeros and by an underscore; a reader takes these away from the end.
-/
import TonWallet.Td.BitsCopy

namespace TonWallet.Td.Bitstring

open Lib.BitMemory

/-! ## Writing -/

/-- `hex_digits`. -/
def hexDigit (v : Nat) : Char := "0123456789ABCDEF".toList.getD v '0'

/-- Bytes go to the accumulator while there is room. -/
def fillAcc (m : Memory) (ptr : Int) (acc : BitVec 64) (bits len : Nat) : Int × BitVec 64 × Nat × Nat :=
  if 8 ≤ len ∧ bits ≤ 56 then fillAcc m (ptr + 1) (acc <<< 8 ||| (m ptr).setWidth 64) (bits + 8) (len - 8) else (ptr, acc, bits, len)
termination_by len

/-- And whole digits leave it. -/
def pushDigits (s : List Char) (acc : BitVec 64) (bits : Nat) : List Char × Nat :=
  if 4 ≤ bits then pushDigits (s ++ [hexDigit ((acc >>> (bits - 4)).toNat % 16)]) acc (bits - 4) else (s, bits)
termination_by bits

theorem fillAcc_measure (m : Memory) (ptr : Int) (acc : BitVec 64) (bits len : Nat) :
    64 * (fillAcc m ptr acc bits len).2.2.2 + (fillAcc m ptr acc bits len).2.2.1 ≤ 64 * len + bits ∧
      (8 ≤ len → bits ≤ 56 → 64 * (fillAcc m ptr acc bits len).2.2.2 + (fillAcc m ptr acc bits len).2.2.1 < 64 * len + bits) ∧
      (fillAcc m ptr acc bits len).2.2.1 ≥ bits := by
  fun_induction fillAcc m ptr acc bits len with
  | case1 ptr acc bits len hroom ih =>
    obtain ⟨hle, -, hge⟩ := ih
    exact ⟨by omega, fun _ _ => by omega, by omega⟩
  | case2 ptr acc bits len hroom => exact ⟨le_refl _, fun h0 h1 => absurd ⟨h0, h1⟩ hroom, le_refl _⟩

theorem pushDigits_bits (s : List Char) (acc : BitVec 64) (bits : Nat) : (pushDigits s acc bits).2 = bits % 4 := by
  fun_induction pushDigits s acc bits with
  | case1 s bits hbits ih => rw [ih, ← Nat.mod_eq_sub_mod hbits]
  | case2 s bits hbits => exact (Nat.mod_eq_of_lt (not_le.1 hbits)).symm

/-- Bytes and digits in turns, as long as there are whole bytes. -/
def hexLoop (m : Memory) (ptr : Int) (s : List Char) (acc : BitVec 64) (bits len : Nat) : List Char × Int × BitVec 64 × Nat × Nat :=
  if 8 ≤ len then
    let filled := fillAcc m ptr acc bits len
    let pushed := pushDigits s filled.2.1 filled.2.2.1
    hexLoop m filled.1 pushed.1 filled.2.1 pushed.2 filled.2.2.2
  else (s, ptr, acc, bits, len)
termination_by 64 * len + bits
decreasing_by
  rename_i hlen
  obtain ⟨hle, hlt, hge⟩ := fillAcc_measure m ptr acc bits len
  rw [pushDigits_bits]
  have := Nat.mod_le (fillAcc m ptr acc bits len).2.2.1 4
  by_cases hroom : bits ≤ 56
  · have := hlt hlen hroom
    omega
  · omega

/-- `bits_to_hex`; no result where the check fails that no bits are left. -/
def bitsToHex (m : Memory) (ptr offs : Int) (len : Nat) : Option (List Char) :=
  if len = 0 then some []
  else
    let ptr := ptr + offs / 8
    let offs := (offs % 8).toNat
    let acc := (m ptr &&& lowMask offs).setWidth 64
    let bits := 8 - offs
    let (s, acc, bits) :=
      if len < bits then ([], acc >>> (bits - len), len)
      else
        let (s, ptr, acc, bits, len) := hexLoop m (ptr + 1) [] acc bits (len - bits)
        if 0 < len then (s, acc <<< len ||| (m ptr >>> (8 - len)).setWidth 64, bits + len) else (s, acc, bits)
    let f := bits % 4
    let (acc, bits) := if f ≠ 0 then ((2 * acc + 1) <<< (3 - f), bits + (4 - f)) else (acc, bits)
    let (s, bits) := pushDigits s acc bits
    if bits ≠ 0 then none else if f ≠ 0 then some (s ++ ['_']) else some s

/-! ## Reading -/

def isHexDigit (c : Char) : Bool := ('0' ≤ c && c ≤ '9') || ('a' ≤ c && c ≤ 'f') || ('A' ≤ c && c ≤ 'F')

/-- The value of a hexadecimal digit. -/
def hexValue (c : Char) : Nat := if c ≤ '9' then c.toNat - '0'.toNat else (c.toNat ||| 0x20) - 'a'.toNat + 10

/-- The characters of a literal; `.error` is the place of one that is wrong. -/
def parseDigits (m : Memory) (ptr : Int) (count : Nat) (cmpl : Bool) (buffSize pos : Nat) :
    List Char → Memory × Except Nat (Int × Nat × Bool)
  | [] => (m, .ok (ptr, count, cmpl))
  | c :: rest =>
    let pos := pos + 1
    if c = ' ' ∨ c = '\t' then parseDigits m ptr count cmpl buffSize pos rest
    else if cmpl then (m, .error pos)
    else if isHexDigit c then
      let val := hexValue c
      if 2 * buffSize ≤ count then (m, .error pos)
      else if count % 2 = 0 then parseDigits (setByte m ptr (BitVec.ofNat 8 (val <<< 4))) ptr (count + 1) cmpl buffSize pos rest
      else parseDigits (setByte m ptr (m ptr ||| BitVec.ofNat 8 val)) (ptr + 1) (count + 1) cmpl buffSize pos rest
    else if c = '_' then parseDigits m ptr count true buffSize pos rest
    else (m, .error pos)

/-- The bits that are left without the last one and the zeros behind it. -/
def stripTail (m : Memory) : Int → Nat → Nat → Nat
  | _, _, 0 => 0
  | ptr, t, bits + 1 =>
    if t % 2 = 1 then bits
    else if t / 2 = 1 then stripTail m (ptr - 1) (0x100 + (m (ptr - 1)).toNat) bits
    else stripTail m ptr (t / 2) bits

/-- `parse_bitstring_hex_literal`: the buffer, and the number of bits or the place of an error below zero. -/
def parseBitstringHexLiteral (m : Memory) (buff : Int) (buffSize : Nat) (str : List Char) : Memory × Int :=
  match parseDigits m buff 0 false buffSize 0 str with
  | (m, .error pos) => (m, -pos)
  | (m, .ok (ptr, count, cmpl)) =>
    let bits := 4 * count
    if cmpl ∧ bits ≠ 0 then
      if count % 2 = 1 then (m, stripTail m ptr ((0x100 + (m ptr).toNat) / 16) bits)
      else (m, stripTail m (ptr - 1) (0x100 + (m (ptr - 1)).toNat) bits)
    else (m, bits)

/-! ## The digits of bits -/

/-- The number of four bits. -/
def nibble (g : Int → Bool) (i : Int) : Nat := 8 * (g i).toNat + 4 * (g (i + 1)).toNat + 2 * (g (i + 2)).toNat + (g (i + 3)).toNat

/-- So many digits of the bits from an address on. -/
def digitsOf (g : Int → Bool) (S : Int) (n : Nat) : List Char := (List.range n).map fun j : Nat => hexDigit (nibble g (S + 4 * j))

theorem digitsOf_succ (g : Int → Bool) (S : Int) (n : Nat) :
    digitsOf g S (n + 1) = digitsOf g S n ++ [hexDigit (nibble g (S + 4 * n))] := by
  rw [digitsOf, List.range_succ, List.map_append, List.map_singleton, digitsOf]

theorem nibble_congr {f g : Int → Bool} {i : Int} (h : ∀ j, i ≤ j → j < i + 4 → f j = g j) : nibble f i = nibble g i := by
  unfold nibble
  rw [h i (by omega) (by omega), h (i + 1) (by omega) (by omega), h (i + 2) (by omega) (by omega), h (i + 3) (by omega) (by omega)]

theorem nibble_lt (g : Int → Bool) (i : Int) : nibble g i < 16 := by
  unfold nibble
  have h0 := Bool.toNat_le (g i)
  have h1 := Bool.toNat_le (g (i + 1))
  have h2 := Bool.toNat_le (g (i + 2))
  have h3 := Bool.toNat_le (g (i + 3))
  omega

/-- The low four bits of a number. -/
theorem mod_sixteen (n : Nat) :
    n % 16 = 8 * (n.testBit 3).toNat + 4 * (n.testBit 2).toNat + 2 * (n.testBit 1).toNat + (n.testBit 0).toNat := by
  rw [Nat.toNat_testBit, Nat.toNat_testBit, Nat.toNat_testBit, Nat.toNat_testBit]
  omega

theorem Carries.nibble {g : Int → Bool} {acc : BitVec 64} {bits : Nat} {hi : Int} (h : Carries g acc bits hi) (hbits : 4 ≤ bits) :
    (acc >>> (bits - 4)).toNat % 16 = nibble g (hi - bits) := by
  rw [mod_sixteen]
  simp only [BitVec.testBit_toNat, BitVec.getLsbD_ushiftRight]
  rw [h _ (by omega), h _ (by omega), h _ (by omega), h _ (by omega), Bitstring.nibble,
    show hi - 1 - ((bits - 4 + 3 : Nat) : Int) = hi - bits by omega, show hi - 1 - ((bits - 4 + 2 : Nat) : Int) = hi - bits + 1 by omega,
    show hi - 1 - ((bits - 4 + 1 : Nat) : Int) = hi - bits + 2 by omega,
    show hi - 1 - ((bits - 4 + 0 : Nat) : Int) = hi - bits + 3 by omega]

/-- Digits are pushed until less than one is left. -/
theorem pushDigits_spec {g : Int → Bool} {S hi : Int} {n bits : Nat} {s : List Char} {acc : BitVec 64} (hs : s = digitsOf g S n)
    (h : Carries g acc bits hi) (hplace : S + 4 * n + bits = hi) :
    ∃ n' : Nat, (pushDigits s acc bits).1 = digitsOf g S n' ∧ S + 4 * n' + (bits % 4 : Nat) = hi := by
  fun_induction pushDigits s acc bits generalizing n with
  | case1 s bits hbits ih =>
    have hnext := ih (n := n + 1) (by rw [digitsOf_succ, hs, h.nibble hbits]; congr 4; omega)
      (fun k hk => h k (by omega)) (by omega)
    rwa [← Nat.mod_eq_sub_mod hbits] at hnext
  | case2 s bits hbits => exact ⟨n, hs, by omega⟩

section

variable {m : Memory} {S ptr : Int} {n bits len : Nat} {s : List Char} {acc : BitVec 64}

theorem fillAcc_carries (h : Carries (bit m) acc bits (8 * ptr)) (hroom : bits ≤ 64) :
    Carries (bit m) (fillAcc m ptr acc bits len).2.1 (fillAcc m ptr acc bits len).2.2.1 (8 * (fillAcc m ptr acc bits len).1) ∧
      8 * (fillAcc m ptr acc bits len).1 + (fillAcc m ptr acc bits len).2.2.2 = 8 * ptr + len ∧
      8 * (fillAcc m ptr acc bits len).1 - (fillAcc m ptr acc bits len).2.2.1 = 8 * ptr - bits := by
  fun_induction fillAcc m ptr acc bits len with
  | case1 ptr acc bits len hlen ih =>
    have hmore := h.more (getLsbD_setWidth_byte m ptr) (by omega)
    obtain ⟨hcarries, hend, hbits⟩ := ih (by convert hmore using 1; omega) (by omega)
    exact ⟨hcarries, by omega, by omega⟩
  | case2 ptr acc bits len hlen => exact ⟨h, rfl, rfl⟩

/-- Digits of the bits read, while the bits that are carried follow them. -/
theorem hexLoop_spec (hs : s = digitsOf (bit m) S n) (h : Carries (bit m) acc bits (8 * ptr)) (hplace : S + 4 * n + bits = 8 * ptr)
    (hbits : bits ≤ 8) :
    ∃ n' : Nat, (hexLoop m ptr s acc bits len).1 = digitsOf (bit m) S n' ∧
      Carries (bit m) (hexLoop m ptr s acc bits len).2.2.1 (hexLoop m ptr s acc bits len).2.2.2.1 (8 * (hexLoop m ptr s acc bits len).2.1) ∧
      S + 4 * n' + (hexLoop m ptr s acc bits len).2.2.2.1 = 8 * (hexLoop m ptr s acc bits len).2.1 ∧
      (hexLoop m ptr s acc bits len).2.2.2.1 ≤ 8 ∧
      8 * (hexLoop m ptr s acc bits len).2.1 + (hexLoop m ptr s acc bits len).2.2.2.2 = 8 * ptr + len ∧
      (hexLoop m ptr s acc bits len).2.2.2.2 < 8 := by
  fun_induction hexLoop m ptr s acc bits len generalizing n with
  | case1 ptr s acc bits len hlen filled pushed =>
    rename_i ih
    obtain ⟨hcarries, hend, hleft⟩ := @fillAcc_carries m ptr bits len acc h (by omega)
    have hfilled : filled = fillAcc m ptr acc bits len := rfl
    rw [← hfilled] at hcarries hend hleft
    obtain ⟨n1, hdigits, hnext⟩ := pushDigits_spec hs hcarries (by omega)
    have hrest : pushed.2 = filled.2.2.1 % 4 := pushDigits_bits ..
    have hless : pushed.2 < 4 := hrest ▸ Nat.mod_lt _ (by decide)
    obtain ⟨n2, hs2, hcarries2, hplace2, hbits2, hend2, hless2⟩ := ih hdigits
      (hcarries.fewer (by rw [hrest]; exact Nat.mod_le ..)) (by rw [hrest]; exact hnext) (by omega)
    exact ⟨n2, hs2, hcarries2, hplace2, hbits2, by omega, hless2⟩
  | case2 ptr s acc bits len hlen => exact ⟨n, hs, h, hplace, hbits, rfl, not_le.1 hlen⟩

end

/-- The bits of a range with a one and zeros behind them. -/
def closed (m : Memory) (S : Int) (len : Nat) (i : Int) : Bool := if i < S + len then bit m i else decide (i = S + len)

theorem getLsbD_two_mul_add_one (acc : BitVec 64) {k : Nat} (hk : k < 64) :
    (2 * acc + 1).getLsbD k = if k = 0 then true else acc.getLsbD (k - 1) := by
  have hnat : (2 * acc + 1).toNat = (2 * acc.toNat + 1) % 2 ^ 64 := by
    simp [BitVec.toNat_add, BitVec.toNat_mul]
  rw [← BitVec.testBit_toNat, hnat, Nat.testBit_mod_two_pow, decide_eq_true hk, Bool.true_and]
  cases k with
  | zero =>
    rw [if_pos rfl, Nat.testBit_zero]
    exact decide_eq_true (by omega)
  | succ k =>
    rw [if_neg (Nat.succ_ne_zero k), Nat.testBit_succ, show (2 * acc.toNat + 1) / 2 = acc.toNat by omega, Nat.add_sub_cancel,
      BitVec.testBit_toNat]

theorem digitsOf_congr {f g : Int → Bool} {S : Int} {n : Nat} (h : ∀ i, i < S + 4 * n → f i = g i) : digitsOf f S n = digitsOf g S n := by
  refine List.map_congr_left fun j hj => ?_
  have hj := List.mem_range.1 hj
  rw [nibble_congr fun i _ hi => h i (by omega)]

/-- The bits that are closed for the last digit. -/
theorem carries_closed {m : Memory} {S : Int} {len bits f : Nat} {acc : BitVec 64} (h : Carries (bit m) acc bits (S + len)) (h0 : 0 < f)
    (hf : f < 4) (hroom : bits ≤ 60) :
    Carries (closed m S len) ((2 * acc + 1) <<< (3 - f)) (bits + (4 - f)) (S + len + (4 - f : Nat)) := by
  intro k hk
  rw [BitVec.getLsbD_shiftLeft, decide_eq_true (by omega : k < 64), Bool.true_and, closed]
  rcases lt_trichotomy k (3 - f) with hlow | hone | hhigh
  · rw [decide_eq_true hlow, Bool.not_true, Bool.false_and, if_neg (by omega), eq_comm, decide_eq_false_iff_not]
    omega
  · rw [decide_eq_false (by omega : ¬k < 3 - f), getLsbD_two_mul_add_one acc (by omega), if_pos (by omega), if_neg (by omega), eq_comm,
      Bool.not_false, Bool.true_and, decide_eq_true_eq]
    omega
  · rw [decide_eq_false (by omega : ¬k < 3 - f), getLsbD_two_mul_add_one acc (by omega), if_neg (by omega), if_pos (by omega),
      h _ (by omega), Bool.not_false, Bool.true_and]
    congr 1
    omega

/-- The digits of the bits, closed where they do not fill the last digit. -/
theorem bitsToHex_eq (m : Memory) (ptr offs : Int) (len : Nat) :
    bitsToHex m ptr offs len = some (digitsOf (closed m (8 * ptr + offs) len) (8 * ptr + offs) ((len + 3) / 4) ++
      if len % 4 ≠ 0 then ['_'] else []) := by
  unfold bitsToHex
  obtain rfl | hpos := Nat.eq_zero_or_pos len
  · rw [if_pos rfl]
    rfl
  rw [if_neg hpos.ne']
  obtain ⟨S, hS⟩ : ∃ S, S = 8 * ptr + offs := ⟨_, rfl⟩
  obtain ⟨p, hp⟩ : ∃ p, p = ptr + offs / 8 := ⟨_, rfl⟩
  obtain ⟨o, ho⟩ : ∃ o, o = (offs % 8).toNat := ⟨_, rfl⟩
  rw [← hS, ← hp, ← ho]
  dsimp only
  have hfirst : ∀ k < 8 - o, ((m p &&& lowMask o).setWidth 64).getLsbD k = bit m (8 * p + 7 - k) := by
    intro k hk
    rw [BitVec.getLsbD_setWidth, BitVec.getLsbD_and, getLsbD_lowMask, getLsbD_byte m p (by omega), decide_eq_true (by omega : k < 64),
      decide_eq_true (by omega : k + o < 8), Bool.true_and, Bool.and_true]
  generalize hread : (if len < 8 - o then
      (([] : List Char), (m p &&& lowMask o).setWidth 64 >>> (8 - o - len), len)
    else _) = read
  obtain ⟨s, acc, bits⟩ := read
  have hbits : ∃ n, s = digitsOf (bit m) S n ∧ Carries (bit m) acc bits (S + len) ∧ 4 * n + bits = len ∧ bits ≤ 60 := by
    by_cases hshort : len < 8 - o
    · rw [if_pos hshort] at hread
      cases hread
      refine ⟨0, rfl, fun k hk => ?_, by omega, by omega⟩
      rw [BitVec.getLsbD_ushiftRight, hfirst _ (by omega)]
      congr 1
      omega
    · rw [if_neg hshort] at hread
      have hloop := @hexLoop_spec m S (p + 1) 0 (8 - o) (len - (8 - o)) [] ((m p &&& lowMask o).setWidth 64) rfl
        (fun k hk => by rw [hfirst k hk]; congr 1; omega) (by omega) (by omega)
      generalize hexLoop m (p + 1) [] ((m p &&& lowMask o).setWidth 64) (8 - o) (len - (8 - o)) = looped at hloop hread
      obtain ⟨s1, ptr1, acc1, bits1, len1⟩ := looped
      obtain ⟨n1, hs1, hcarries1, hplace1, hbits1, hend1, hless1⟩ := hloop
      dsimp only at hs1 hcarries1 hplace1 hbits1 hend1 hless1 hread
      split_ifs at hread with hrest
      · cases hread
        have hmore := @Carries.more (bit m) acc1 ((m ptr1 >>> (8 - len1)).setWidth 64) bits1 len1 (8 * ptr1) hcarries1 (fun k => by
          rw [BitVec.getLsbD_setWidth, BitVec.getLsbD_ushiftRight]
          by_cases hk : k < len1
          · rw [getLsbD_byte m ptr1 (by omega), decide_eq_true hk, decide_eq_true (by omega)]
            congr 2
            omega
          · rw [decide_eq_false hk, BitVec.getLsbD_of_ge _ _ (by omega), Bool.and_false, Bool.false_and]) (by omega)
        refine ⟨n1, hs1, ?_, by omega, by omega⟩
        convert hmore using 1
        omega
      · cases hread
        refine ⟨n1, hs1, ?_, by omega, by omega⟩
        convert hcarries1 using 1
        omega
  obtain ⟨n, hs, hcarries, hsum, hroom⟩ := hbits
  have hmod : bits % 4 = len % 4 := by omega
  have hs' : s = digitsOf (closed m S len) S n := hs.trans (digitsOf_congr fun i hi => (if_pos (by omega)).symm)
  dsimp only
  rw [hmod]
  by_cases hf : len % 4 ≠ 0
  · have hclosed := carries_closed hcarries (f := len % 4) (by omega) (by omega) hroom
    obtain ⟨n', hdigits, hend⟩ := pushDigits_spec hs' hclosed (by omega)
    have hnone := pushDigits_bits s ((2 * acc + 1) <<< (3 - len % 4)) (bits + (4 - len % 4))
    simp only [if_pos hf]
    rw [hdigits, hnone, if_neg (by omega), show n' = (len + 3) / 4 by omega]
  · have hcarries' : Carries (closed m S len) acc bits (S + len) := fun k hk => (hcarries k hk).trans (if_pos (by omega)).symm
    obtain ⟨n', hdigits, hend⟩ := pushDigits_spec hs' hcarries' (by omega)
    have hnone := pushDigits_bits s acc bits
    simp only [if_neg hf]
    rw [hdigits, hnone, if_neg (by omega), show n' = (len + 3) / 4 by omega, List.append_nil]

/-! ## Reading digits -/

theorem digitsOf_cons (g : Int → Bool) (S : Int) (n : Nat) : digitsOf g S (n + 1) = hexDigit (nibble g S) :: digitsOf g (S + 4) n := by
  rw [digitsOf, List.range_succ_eq_map, List.map_cons, List.map_map, digitsOf, Nat.cast_zero, mul_zero, add_zero]
  congr 1
  refine List.map_congr_left fun j _ => ?_
  rw [Function.comp_apply, show S + 4 * ((j + 1 : Nat) : Int) = S + 4 + 4 * j by omega]

/-- A digit is read back. -/
theorem hexDigit_read {v : Nat} (hv : v < 16) :
    (hexDigit v ≠ ' ' ∧ hexDigit v ≠ '\t') ∧ isHexDigit (hexDigit v) = true ∧ hexValue (hexDigit v) = v := by
  have hall : ∀ v < 16, (hexDigit v ≠ ' ' ∧ hexDigit v ≠ '\t') ∧ isHexDigit (hexDigit v) = true ∧ hexValue (hexDigit v) = v := by
    decide
  exact hall v hv

theorem testBit_nibble (g : Int → Bool) (i : Int) (k : Nat) : (nibble g i).testBit k = (decide (k < 4) && g (i + 3 - k)) := by
  by_cases hk : k < 4
  · rw [decide_eq_true hk, Bool.true_and, nibble]
    have hall : ∀ (a b c d : Bool), (8 * a.toNat + 4 * b.toNat + 2 * c.toNat + d.toNat).testBit 3 = a ∧
        (8 * a.toNat + 4 * b.toNat + 2 * c.toNat + d.toNat).testBit 2 = b ∧
        (8 * a.toNat + 4 * b.toNat + 2 * c.toNat + d.toNat).testBit 1 = c ∧
        (8 * a.toNat + 4 * b.toNat + 2 * c.toNat + d.toNat).testBit 0 = d := by decide
    obtain ⟨h3, h2, h1, h0⟩ := hall (g i) (g (i + 1)) (g (i + 2)) (g (i + 3))
    obtain rfl | rfl | rfl | rfl : k = 3 ∨ k = 2 ∨ k = 1 ∨ k = 0 := by omega
    · rw [h3]
      congr 1
      omega
    · rw [h2]
      congr 1
      omega
    · rw [h1]
      congr 1
      omega
    · rw [h0]
      congr 1
      omega
  · rw [decide_eq_false hk, Bool.false_and]
    refine Nat.testBit_lt_two_pow ((nibble_lt g i).trans_le ?_)
    exact Nat.pow_le_pow_right (show 2 > 0 by decide) (show 4 ≤ k by omega)

/-- What the buffer holds after so many digits: their bits, and zeros up to the end of a byte. -/
def parsed (g : Int → Bool) (S buff : Int) (n : Nat) (i : Int) : Bool := decide (i < 8 * buff + 4 * n) && g (S + (i - 8 * buff))

section

variable {m₀ m : Memory} {g : Int → Bool} {S buff : Int} {n : Nat}

/-- A digit in the upper half of a byte. -/
theorem sets_upper (hn : n % 2 = 0) (h : Sets m₀ m (8 * buff) (8 * buff + 8 * ((n + 1) / 2 : Nat)) (parsed g S buff n)) :
    Sets m₀ (setByte m (buff + (n / 2 : Nat)) (BitVec.ofNat 8 (nibble g (S + 4 * n) <<< 4))) (8 * buff)
      (8 * buff + 8 * ((n + 2) / 2 : Nat)) (parsed g S buff (n + 1)) := by
  have hbyte : Sets m (setByte m (buff + (n / 2 : Nat)) (BitVec.ofNat 8 (nibble g (S + 4 * n) <<< 4)))
      (8 * buff + 8 * ((n + 1) / 2 : Nat)) (8 * buff + 8 * ((n + 2) / 2 : Nat)) (parsed g S buff (n + 1)) := by
    have hset := sets_setByte m (buff + (n / 2 : Nat)) (BitVec.ofNat 8 (nibble g (S + 4 * n) <<< 4))
    rw [show 8 * (buff + ((n / 2 : Nat) : Int)) = 8 * buff + 8 * ((n + 1) / 2 : Nat) by omega,
      show 8 * buff + 8 * (((n + 1) / 2 : Nat) : Int) + 8 = 8 * buff + 8 * ((n + 2) / 2 : Nat) by omega] at hset
    refine hset.congr fun i h0 h1 => ?_
    obtain ⟨k, hk⟩ : ∃ k : Nat, 8 * buff + 8 * (((n + 1) / 2 : Nat) : Int) + 7 - i = k :=
      ⟨(8 * buff + 8 * (((n + 1) / 2 : Nat) : Int) + 7 - i).toNat, by omega⟩
    rw [hk, Int.toNat_natCast, BitVec.getLsbD_ofNat, Nat.testBit_shiftLeft, testBit_nibble, parsed, decide_eq_true (by omega : k < 8),
      decide_eq_true (by omega : k - 4 < 4), Bool.true_and, Bool.true_and]
    by_cases hhigh : 4 ≤ k
    · rw [decide_eq_true hhigh, decide_eq_true (by omega)]
      congr 2
      omega
    · rw [decide_eq_false hhigh, decide_eq_false (by omega : ¬i < 8 * buff + 4 * ((n + 1 : Nat) : Int)), Bool.false_and, Bool.false_and]
  refine (h.congr fun i h0 h1 => ?_).trans hbyte (by omega) (by omega)
  rw [parsed, parsed, decide_eq_true (by omega : i < 8 * buff + 4 * (n : Int)),
    decide_eq_true (by omega : i < 8 * buff + 4 * ((n + 1 : Nat) : Int))]

/-- A digit in the lower half. -/
theorem sets_lower (hn : n % 2 = 1) (h : Sets m₀ m (8 * buff) (8 * buff + 8 * ((n + 1) / 2 : Nat)) (parsed g S buff n)) :
    Sets m₀ (setByte m (buff + (n / 2 : Nat)) (m (buff + (n / 2 : Nat)) ||| BitVec.ofNat 8 (nibble g (S + 4 * n)))) (8 * buff)
      (8 * buff + 8 * ((n + 2) / 2 : Nat)) (parsed g S buff (n + 1)) := by
  have hbyte : Sets m (setByte m (buff + (n / 2 : Nat)) (m (buff + (n / 2 : Nat)) ||| BitVec.ofNat 8 (nibble g (S + 4 * n))))
      (8 * buff + 8 * (n / 2 : Nat)) (8 * buff + 8 * ((n + 2) / 2 : Nat)) (parsed g S buff (n + 1)) := by
    have hset := sets_setByte m (buff + (n / 2 : Nat)) (m (buff + (n / 2 : Nat)) ||| BitVec.ofNat 8 (nibble g (S + 4 * n)))
    rw [show 8 * (buff + ((n / 2 : Nat) : Int)) = 8 * buff + 8 * (n / 2 : Nat) by omega,
      show 8 * buff + 8 * ((n / 2 : Nat) : Int) + 8 = 8 * buff + 8 * ((n + 2) / 2 : Nat) by omega] at hset
    refine hset.congr fun i h0 h1 => ?_
    obtain ⟨k, hk⟩ : ∃ k : Nat, 8 * buff + 8 * ((n / 2 : Nat) : Int) + 7 - i = k :=
      ⟨(8 * buff + 8 * ((n / 2 : Nat) : Int) + 7 - i).toNat, by omega⟩
    rw [hk, Int.toNat_natCast, BitVec.getLsbD_or, getLsbD_byte m _ (by omega), BitVec.getLsbD_ofNat, testBit_nibble,
      show 8 * (buff + ((n / 2 : Nat) : Int)) + 7 - k = i by omega, h.bit_of_inside (by omega) (by omega), parsed, parsed,
      decide_eq_true (by omega : k < 8), decide_eq_true (by omega : i < 8 * buff + 4 * ((n + 1 : Nat) : Int)), Bool.true_and,
      Bool.true_and]
    by_cases hlow : k < 4
    · rw [decide_eq_true hlow, decide_eq_false (by omega), Bool.false_and, Bool.false_or, Bool.true_and]
      congr 1
      omega
    · rw [decide_eq_false hlow, decide_eq_true (by omega), Bool.false_and, Bool.or_false, Bool.true_and]
  rw [show (n + 1) / 2 = (n + 2) / 2 by omega] at h
  refine h.overwrite hbyte (by omega) (fun i h0 h1 => ?_) (by omega)
  rw [parsed, parsed, decide_eq_true (by omega : i < 8 * buff + 4 * (n : Int)),
    decide_eq_true (by omega : i < 8 * buff + 4 * ((n + 1 : Nat) : Int))]

/-- Digits are read one after the other. -/
theorem parseDigits_digitsOf {buffSize d : Nat} (tail : List Char) (pos : Nat) (hroom : n + d ≤ 2 * buffSize)
    (h : Sets m₀ m (8 * buff) (8 * buff + 8 * ((n + 1) / 2 : Nat)) (parsed g S buff n)) :
    ∃ m', parseDigits m (buff + (n / 2 : Nat)) n false buffSize pos (digitsOf g (S + 4 * n) d ++ tail) =
        parseDigits m' (buff + ((n + d) / 2 : Nat)) (n + d) false buffSize (pos + d) tail ∧
      Sets m₀ m' (8 * buff) (8 * buff + 8 * ((n + d + 1) / 2 : Nat)) (parsed g S buff (n + d)) := by
  induction d generalizing m n pos with
  | zero => exact ⟨m, rfl, h⟩
  | succ d ih =>
    obtain ⟨⟨hspace, htab⟩, hdigit, hvalue⟩ := hexDigit_read (nibble_lt g (S + 4 * n))
    rw [digitsOf_cons, List.cons_append, parseDigits]
    dsimp only
    rw [if_neg (not_or.2 ⟨hspace, htab⟩), if_neg Bool.false_ne_true, if_pos hdigit, hvalue, if_neg (by omega),
      show S + 4 * (n : Int) + 4 = S + 4 * ((n + 1 : Nat) : Int) by omega]
    split_ifs with heven
    · obtain ⟨m', heq, hsets⟩ := ih (pos + 1) (by omega) (sets_upper heven h)
      refine ⟨m', ?_, ?_⟩
      · rw [show (n + 1) / 2 = n / 2 by omega] at heq
        rw [heq]
        congr 1 <;> omega
      · convert hsets using 2 <;> omega
    · obtain ⟨m', heq, hsets⟩ := ih (pos + 1) (by omega) (sets_lower (by omega) h)
      refine ⟨m', ?_, ?_⟩
      · rw [show buff + ((n / 2 : Nat) : Int) + 1 = buff + ((n + 1) / 2 : Nat) by omega, heq]
        congr 1 <;> omega
      · convert hsets using 2 <;> omega

end

/-! ## There and back -/

/-- The one at the end is found behind the zeros, in a byte that holds bits above it. -/
theorem stripTail_eq (m : Memory) (ptr : Int) {j bits u t : Nat} (ht : t = 2 ^ j * (2 * u + 1)) (hu : 1 ≤ u) (hbits : j + 1 ≤ bits) :
    stripTail m ptr t bits = bits - (j + 1) := by
  obtain ⟨rest, rfl⟩ := Nat.exists_eq_add_of_le' hbits
  induction j generalizing t rest with
  | zero =>
    rw [stripTail, if_pos (by omega)]
    omega
  | succ j ih =>
    have hpow : 1 ≤ 2 ^ j := Nat.one_le_two_pow
    have hhalf : t / 2 = 2 ^ j * (2 * u + 1) := by
      rw [ht, pow_succ', mul_assoc, Nat.mul_div_cancel_left _ (by decide)]
    have hlarge : 1 * 3 ≤ 2 ^ j * (2 * u + 1) := Nat.mul_le_mul hpow (by omega)
    have heven : t % 2 = 0 := by
      rw [ht, pow_succ', mul_assoc, Nat.mul_mod_right]
    rw [show rest + (j + 1 + 1) = rest + (j + 1) + 1 by omega, stripTail, if_neg (by omega), if_neg (by omega),
      ih hhalf rest (by omega)]
    omega

/-- The last digit of closed bits ends in a one and zeros. -/
theorem nibble_closed (m : Memory) {S i : Int} {len f : Nat} (hi : i + f = S + len) (h0 : 0 < f) (hf : f < 4) (x : Nat) :
    ∃ u, 16 * (x + 1) + nibble (closed m S len) i = 2 ^ (3 - f) * (2 * u + 1) ∧ 1 ≤ u := by
  have hbit : ∀ j : Int, i + f < j → closed m S len j = false := by
    intro j hj
    rw [closed, if_neg (by omega), decide_eq_false_iff_not]
    omega
  have hone : ∀ j : Int, j = i + f → closed m S len j = true := by
    intro j hj
    rw [closed, if_neg (by omega), decide_eq_true_eq]
    omega
  have hbound := nibble_lt (closed m S len) i
  unfold nibble at hbound ⊢
  obtain rfl | rfl | rfl : f = 1 ∨ f = 2 ∨ f = 3 := by omega
  · rw [hone (i + 1) (by omega), hbit (i + 2) (by omega), hbit (i + 3) (by omega)]
    refine ⟨2 * (x + 1) + (closed m S len i).toNat, ?_, by omega⟩
    rw [Bool.toNat_true, Bool.toNat_false]
    omega
  · rw [hone (i + 2) (by omega), hbit (i + 3) (by omega)]
    refine ⟨4 * (x + 1) + 2 * (closed m S len i).toNat + (closed m S len (i + 1)).toNat, ?_, by omega⟩
    rw [Bool.toNat_true, Bool.toNat_false]
    omega
  · rw [hone (i + 3) (by omega)]
    refine ⟨8 * (x + 1) + 4 * (closed m S len i).toNat + 2 * (closed m S len (i + 1)).toNat + (closed m S len (i + 2)).toNat,
      ?_, by omega⟩
    rw [Bool.toNat_true]
    omega

/-- Four bits of a byte of the buffer. -/
theorem div_mod_sixteen {m : Memory} {g : Int → Bool} {p i : Int} {c : Nat} (hc : c ≤ 4)
    (h : ∀ k < 4, bit m (8 * p + 7 - (c + k : Nat)) = g (i + 3 - k)) : (m p).toNat / 2 ^ c % 16 = nibble g i := by
  rw [mod_sixteen]
  have hbit : ∀ k < 4, ((m p).toNat / 2 ^ c).testBit k = g (i + 3 - k) := by
    intro k hk
    rw [Nat.testBit_div_two_pow, BitVec.testBit_toNat, getLsbD_byte m p (by omega), ← h k hk, Nat.add_comm]
  rw [hbit 3 (by decide), hbit 2 (by decide), hbit 1 (by decide), hbit 0 (by decide), nibble,
    show i + 3 - ((3 : Nat) : Int) = i by omega, show i + 3 - ((2 : Nat) : Int) = i + 1 by omega,
    show i + 3 - ((1 : Nat) : Int) = i + 2 by omega, show i + 3 - ((0 : Nat) : Int) = i + 3 by omega]

theorem parseDigits_underscore (m : Memory) (ptr : Int) (count buffSize pos : Nat) :
    parseDigits m ptr count false buffSize pos ['_'] = (m, .ok (ptr, count, true)) := by
  rw [parseDigits]
  dsimp only
  rw [if_neg (by decide), if_neg Bool.false_ne_true, if_neg (by decide), if_pos rfl, parseDigits]

/-- `bits_to_hex` and then `parse_bitstring_hex_literal`, into a buffer with room for the bits. -/
theorem parse_bitsToHex (m : Memory) (ptr offs : Int) (len : Nat) (m₀ : Memory) (buff : Int) {buffSize : Nat}
    (hroom : len ≤ 8 * buffSize) :
    ∃ s m', bitsToHex m ptr offs len = some s ∧ parseBitstringHexLiteral m₀ buff buffSize s = (m', (len : Int)) ∧
      bitsAt m' (8 * buff) len = bitsAt m (8 * ptr + offs) len ∧
      ∀ i, i < 8 * buff ∨ 8 * buff + 8 * ((len + 7) / 8 : Nat) ≤ i → bit m' i = bit m₀ i := by
  obtain ⟨S, hS⟩ : ∃ S, S = 8 * ptr + offs := ⟨_, rfl⟩
  rw [bitsToHex_eq, ← hS]
  obtain ⟨n, hn⟩ : ∃ n, n = (len + 3) / 4 := ⟨_, rfl⟩
  rw [← hn]
  have hstart : Sets m₀ m₀ (8 * buff) (8 * buff + 8 * ((0 + 1) / 2 : Nat)) (parsed (closed m S len) S buff 0) := by
    rw [show 8 * buff + 8 * (((0 + 1) / 2 : Nat) : Int) = 8 * buff by omega]
    exact Sets.rfl
  obtain ⟨m', heq, hsets⟩ := @parseDigits_digitsOf m₀ m₀ (closed m S len) S buff 0 buffSize n (if len % 4 ≠ 0 then ['_'] else []) 0
    (by omega) hstart
  rw [Nat.cast_zero, mul_zero, Int.add_zero, Int.add_zero, Nat.zero_add] at heq
  rw [Nat.zero_add, show (n + 1) / 2 = (len + 7) / 8 by omega] at hsets
  refine ⟨_, m', rfl, ?_, ?_, fun i hi => hsets.bit_of_outside hi⟩
  · unfold parseBitstringHexLiteral
    rw [heq]
    by_cases hf : len % 4 ≠ 0
    · rw [if_pos hf, parseDigits_underscore]
      dsimp only
      rw [if_pos ⟨rfl, by omega⟩]
      have hlast : ∀ (p : Int) (c : Nat), c ≤ 4 → 8 * p + 7 - c = 8 * buff + 4 * n - 1 →
          (m' p).toNat / 2 ^ c % 16 = nibble (closed m S len) (S + 4 * (n - 1)) := by
        intro p c hc hp
        refine div_mod_sixteen hc fun k hk => ?_
        rw [hsets.bit_of_inside (by omega) (by omega), parsed, decide_eq_true (by omega), Bool.true_and]
        congr 1
        omega
      have hplace : S + 4 * ((n : Int) - 1) + (len % 4 : Nat) = S + len := by omega
      split_ifs with hodd
      · have hbyte := (m' (buff + (n / 2 : Nat))).isLt
        have hdigit := hlast (buff + (n / 2 : Nat)) 4 (by omega) (by omega)
        obtain ⟨u, hu, hpos⟩ := nibble_closed m hplace (by omega) (by omega) 0
        rw [stripTail_eq m' _ (t := (0x100 + (m' (buff + (n / 2 : Nat))).toNat) / 16) (by rw [← hu, ← hdigit]; omega) hpos (by omega)]
        congr 2
        omega
      · have hdigit := hlast (buff + (n / 2 : Nat) - 1) 0 (by omega) (by omega)
        obtain ⟨u, hu, hpos⟩ := nibble_closed m hplace (by omega) (by omega) (15 + (m' (buff + (n / 2 : Nat) - 1)).toNat / 16)
        rw [stripTail_eq m' _ (t := 0x100 + (m' (buff + (n / 2 : Nat) - 1)).toNat) (by rw [← hu, ← hdigit]; omega) hpos (by omega)]
        congr 2
        omega
    · rw [if_neg hf, parseDigits]
      dsimp only
      rw [if_neg (fun h => absurd h.1 Bool.false_ne_true), show 4 * n = len by omega]
  · rw [bitsAt, bitsAt]
    refine List.map_congr_left fun k hk => ?_
    have hk := List.mem_range.1 hk
    rw [hsets.bit_of_inside (by omega) (by omega), parsed, decide_eq_true (by omega), Bool.true_and, closed, if_pos (by omega)]
    congr 1
    omega

end TonWallet.Td.Bitstring
