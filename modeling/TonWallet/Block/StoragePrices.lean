/-
Storage fees: the usage of an account priced by the second, with the prices of the period each second lies in. The sum
is kept in wide integers that are not normalized on the way, and what each period adds to their digits is all there is.
-/
import TonWallet.Td.ThreeDigits

namespace TonWallet.Block

open Lib.BalancedDigits Td.BigInt

structure CellStorageStat where
  cells : Nat
  bits : Nat
  deriving DecidableEq

/-- Prices in parts of 65536, from `validSince` until the next prices are valid. -/
structure StoragePrices where
  validSince : Nat
  bitPrice : Nat
  cellPrice : Nat
  mcBitPrice : Nat
  mcCellPrice : Nat
  deriving DecidableEq

namespace StoragePrices

/-! ## The fees as they are computed -/

/-- There is no result where the check fails. -/
def addPartialStoragePayment (payment : List Int) (delta : Nat) (prices : StoragePrices) (storage : CellStorageStat)
    (isMc : Bool) : Option (List Int) :=
  let c := mulAddShort (word (if isMc then prices.mcCellPrice else prices.cellPrice)) 0 [word storage.cells]
  let b := mulAddShort (word (if isMc then prices.mcBitPrice else prices.bitPrice)) 0 [word storage.bits]
  let b := mulAddShort delta 0 (add b c)
  if sgn b ≥ 0 then some (add payment b) else none

/-- Back over the prices that are not valid yet. -/
def walkBack (pricing : List StoragePrices) (lastPaid : Nat) : Nat → Nat
  | 0 => 0
  | i + 1 => if (pricing[i]?.any fun p => p.validSince > lastPaid) then walkBack pricing lastPaid i else i + 1

/-- Where the prices before `rest` end. -/
def validUntil (now : Nat) (rest : List StoragePrices) : Nat :=
  match rest with
  | [] => now
  | next :: _ => min now next.validSince

/-- The loop over the prices, from the ones that are valid at `upto`. -/
def addPayments (now : Nat) (storage : CellStorageStat) (isMc : Bool) :
    List StoragePrices → Nat → List Int → Option (List Int)
  | [], _, total => some total
  | p :: rest, upto, total =>
    if upto < now then
      if upto < validUntil now rest then
        (addPartialStoragePayment total (validUntil now rest - upto) p storage isMc).bind
          (addPayments now storage isMc rest (validUntil now rest))
      else addPayments now storage isMc rest (validUntil now rest) total
    else some total

/-- No result where a check fails, and no number where nothing is due. -/
def computeStorageFees (now : Nat) (pricing : List StoragePrices) (storageStat : CellStorageStat) (lastPaid : Nat)
    (isSpecial isMasterchain : Bool) : Option (Option (List Int)) :=
  match pricing with
  | [] => some none
  | first :: _ =>
    if now ≤ lastPaid ∨ lastPaid = 0 ∨ isSpecial = true ∨ now ≤ first.validSince then some none
    else
      let i := walkBack pricing lastPaid pricing.length - 1
      (addPayments now storageStat isMasterchain (pricing.drop i) (max lastPaid first.validSince) [0]).map fun total =>
        some (rshift 16 1 total)

/-! ## What one period adds -/

def cellPriceOf (isMc : Bool) (p : StoragePrices) : Nat := if isMc then p.mcCellPrice else p.cellPrice

def bitPriceOf (isMc : Bool) (p : StoragePrices) : Nat := if isMc then p.mcBitPrice else p.bitPrice

/-- The price of a second. -/
def rate (storage : CellStorageStat) (isMc : Bool) (p : StoragePrices) : Nat :=
  storage.bits * bitPriceOf isMc p + storage.cells * cellPriceOf isMc p

/-- The lower digits of the two products of a price, together. -/
def low (storage : CellStorageStat) (isMc : Bool) (p : StoragePrices) : Int :=
  (bitPriceOf isMc p : Int) * storage.bits % base + (cellPriceOf isMc p : Int) * storage.cells % base

/-- What is above the lower digits. -/
def high (storage : CellStorageStat) (isMc : Bool) (p : StoragePrices) : Int :=
  (bitPriceOf isMc p : Int) * storage.bits / base + (cellPriceOf isMc p : Int) * storage.cells / base

theorem rate_eq (storage : CellStorageStat) (isMc : Bool) (p : StoragePrices) :
    (rate storage isMc p : Int) = low storage isMc p + base * high storage isMc p := by
  have hbits := Int.emod_add_mul_ediv ((bitPriceOf isMc p : Int) * storage.bits) base
  have hcells := Int.emod_add_mul_ediv ((cellPriceOf isMc p : Int) * storage.cells) base
  unfold rate low high
  push_cast
  linear_combination -hbits - hcells

/-- What `seconds` add to each of three digits, with `h` above the lower digits. -/
def lowPart (seconds l : Int) : Int := seconds * l % base

def middlePart (seconds l h : Int) : Int := seconds * h % base + seconds * l / base

def topPart (seconds h : Int) : Int := seconds * h / base

theorem value_parts (seconds l h : Int) :
    lowPart seconds l + base * (middlePart seconds l h + base * topPart seconds h) = seconds * (l + base * h) := by
  have hlow := Int.emod_add_mul_ediv (seconds * l) base
  have hhigh := Int.emod_add_mul_ediv (seconds * h) base
  unfold lowPart middlePart topPart
  linear_combination hlow + base * hhigh

/-- The usage and the prices are below the largest word. -/
structure Words (storage : CellStorageStat) (p : StoragePrices) : Prop where
  cells : storage.cells < 9223372036854775808
  bits : storage.bits < 9223372036854775808
  bitPrice : p.bitPrice < 9223372036854775808
  cellPrice : p.cellPrice < 9223372036854775808
  mcBitPrice : p.mcBitPrice < 9223372036854775808
  mcCellPrice : p.mcCellPrice < 9223372036854775808

section

variable {storage : CellStorageStat} {isMc : Bool} {p : StoragePrices}

theorem Words.cellPriceOf_lt (h : Words storage p) : cellPriceOf isMc p < 9223372036854775808 := by
  unfold cellPriceOf
  split_ifs
  · exact h.mcCellPrice
  · exact h.cellPrice

theorem Words.bitPriceOf_lt (h : Words storage p) : bitPriceOf isMc p < 9223372036854775808 := by
  unfold bitPriceOf
  split_ifs
  · exact h.mcBitPrice
  · exact h.bitPrice

theorem low_bounds : 0 ≤ low storage isMc p ∧ low storage isMc p < 9007199254740992 := by
  unfold low base
  omega

theorem high_nonneg : 0 ≤ high storage isMc p := by
  have hbits : 0 ≤ (bitPriceOf isMc p : Int) * storage.bits := by positivity
  have hcells : 0 ≤ (cellPriceOf isMc p : Int) * storage.cells := by positivity
  unfold high base
  omega

/-- The price of a second in three digits, the middle one of which may wrap. -/
theorem digits_rate (h : Words storage p) :
    Digits (add (mulAddShort (word (bitPriceOf isMc p)) 0 [word storage.bits])
      (mulAddShort (word (cellPriceOf isMc p)) 0 [word storage.cells]))
      (low storage isMc p) (word (high storage isMc p)) 0 := by
  rw [word_natCast h.cells, word_natCast h.bits, word_natCast h.cellPriceOf_lt, word_natCast h.bitPriceOf_lt]
  have hbits := @Digits.mul_word (storage.bits : Int) (bitPriceOf isMc p : Int) (Int.natCast_nonneg _)
    (Int.natCast_nonneg _)
  have hcells := @Digits.mul_word (storage.cells : Int) (cellPriceOf isMc p : Int) (Int.natCast_nonneg _)
    (Int.natCast_nonneg _)
  have hwords : ∀ x : Int, word (word x) = word x := by
    intro x
    unfold word
    omega
  have hsum := hbits.add_digits hcells (hwords _) rfl (hwords _) rfl
  rw [word_word_add, word_add_word] at hsum
  have hlow := @low_bounds storage isMc p
  have hword : word (low storage isMc p) = low storage isMc p := word_of_fits (by omega) (by omega)
  rw [← hword]
  exact hsum

variable {total : List Int} {a b c : Int}

/-- The payment for a period fails its check where the price of a second wraps below zero, and adds to each digit
otherwise. -/
theorem addPartialStoragePayment_spec (ht : Digits total a b c) (hb : word b = b) (hc : word c = c)
    (h : Words storage p) {seconds : Nat} (hseconds : 0 < seconds ∧ seconds < 4294967296) :
    (word (high storage isMc p) < 0 ∧ addPartialStoragePayment total seconds p storage isMc = none) ∨
      (0 ≤ word (high storage isMc p) ∧ ∃ total', addPartialStoragePayment total seconds p storage isMc = some total' ∧
        Digits total' (word (a + lowPart seconds (low storage isMc p)))
          (word (b + middlePart seconds (low storage isMc p) (word (high storage isMc p))))
          (word (c + topPart seconds (word (high storage isMc p))))) := by
  have hlow := @low_bounds storage isMc p
  have hhigh := word_bounds (high storage isMc p)
  have hb' := (@digits_rate storage isMc p h).mul_seconds (y := seconds) (by omega) hlow hhigh
  have hdef : addPartialStoragePayment total seconds p storage isMc =
      if sgn (mulAddShort seconds 0 (add (mulAddShort (word (bitPriceOf isMc p)) 0 [word storage.bits])
        (mulAddShort (word (cellPriceOf isMc p)) 0 [word storage.cells]))) ≥ 0 then
        some (add total (mulAddShort seconds 0 (add (mulAddShort (word (bitPriceOf isMc p)) 0 [word storage.bits])
        (mulAddShort (word (cellPriceOf isMc p)) 0 [word storage.cells])))) else none := by
    cases isMc <;> rfl
  rw [hdef]
  generalize word (high storage isMc p) = hi at hb' hhigh ⊢
  generalize low storage isMc p = lo at hb' hlow ⊢
  have hlo : 0 ≤ (seconds : Int) * lo ∧ (seconds : Int) * lo < 38685626227668133590597632 := by
    constructor
    · exact mul_nonneg (by omega) hlow.1
    · exact (mul_lt_mul'' (by omega : (seconds : Int) < 4294967296) hlow.2 (by omega) hlow.1).trans_eq (by norm_num)
  have hhi : -39614081257132168796771975168 ≤ (seconds : Int) * hi ∧
      (seconds : Int) * hi ≤ 39614081257132168796771975168 := by
    constructor <;> nlinarith
  by_cases hneg : hi < 0
  · left
    refine ⟨hneg, if_neg ?_⟩
    have htop : (seconds : Int) * hi / base < 0 := Int.ediv_neg_of_neg_of_pos (by nlinarith) (by decide)
    exact not_le.2 (hb'.sgn_neg htop)
  · right
    have hpos : 0 ≤ (seconds : Int) * hi := mul_nonneg (by omega) (by omega)
    refine ⟨not_lt.1 hneg, _, if_pos (hb'.sgn_nonneg ?_ ?_ ?_), ?_⟩
    · unfold base
      omega
    · unfold base
      omega
    · unfold base
      omega
    · refine ht.add_digits hb' hb hc ?_ ?_
      · unfold middlePart word base
        omega
      · unfold topPart word base
        omega

end

/-! ## The periods of an interval -/

/-- Each price with the seconds of the interval that it is for. -/
def charged (start now : Nat) : List StoragePrices → List (StoragePrices × Nat)
  | [] => []
  | p :: rest => (p, validUntil now rest - max start p.validSince) :: charged start now rest

/-- The sum of what the prices add. -/
def total (f : StoragePrices × Nat → Int) : List (StoragePrices × Nat) → Int
  | [] => 0
  | x :: xs => f x + total f xs

theorem total_eq_zero {f : StoragePrices × Nat → Int} {xs : List (StoragePrices × Nat)} (h : ∀ x ∈ xs, f x = 0) :
    total f xs = 0 := by
  induction xs with
  | nil => rfl
  | cons x xs ih =>
    rw [total, h x List.mem_cons_self, ih fun y hy => h y (List.mem_cons_of_mem x hy), add_zero]

theorem validUntil_le_now (now : Nat) (rest : List StoragePrices) : validUntil now rest ≤ now := by
  cases rest with
  | nil => exact le_refl now
  | cons q rest => exact min_le_left _ _

/-- The prices are listed by the time they are valid from. -/
def Ascending (pricing : List StoragePrices) : Prop := pricing.Pairwise fun p q => p.validSince ≤ q.validSince

section

variable {start now : Nat} {pricing rest : List StoragePrices} {p : StoragePrices}

/-- Nothing is charged for prices from the end of the interval on. -/
theorem charged_late (hasc : Ascending (p :: rest)) (hlate : now ≤ p.validSince) :
    ∀ x ∈ charged start now (p :: rest), x.2 = 0 := by
  induction rest generalizing p with
  | nil =>
    rintro x hx
    rw [List.mem_singleton.1 hx]
    simp only [validUntil]
    omega
  | cons q rest ih =>
    have hnext := (List.pairwise_cons.1 hasc).1 q List.mem_cons_self
    rintro x hx
    rcases List.mem_cons.1 hx with rfl | hx
    · simp only [validUntil]
      omega
    · exact ih (List.pairwise_cons.1 hasc).2 (hlate.trans hnext) x hx

theorem Ascending.drop (hasc : Ascending pricing) (i : Nat) : Ascending (pricing.drop i) :=
  List.Pairwise.sublist (List.drop_sublist i pricing) hasc

/-- Nothing is charged for prices that were replaced before the interval. -/
theorem charged_early {i : Nat} (hearly : ∀ q ∈ pricing[i]?, q.validSince ≤ start) (hasc : Ascending pricing)
    (hi : i < pricing.length) :
    ∃ before, charged start now pricing = before ++ charged start now (pricing.drop i) ∧ ∀ x ∈ before, x.2 = 0 := by
  induction pricing generalizing i with
  | nil => exact ⟨[], by simp, by rintro x ⟨⟩⟩
  | cons p rest ih =>
    cases i with
    | zero => exact ⟨[], rfl, by rintro x ⟨⟩⟩
    | succ i =>
      rw [List.getElem?_cons_succ] at hearly
      rw [List.length_cons] at hi
      obtain ⟨before, hbefore, hzero⟩ := ih hearly (List.pairwise_cons.1 hasc).2 (Nat.lt_of_succ_lt_succ hi)
      refine ⟨(p, validUntil now rest - max start p.validSince) :: before, ?_, ?_⟩
      · rw [charged, hbefore]
        rfl
      · rintro x hx
        rcases List.mem_cons.1 hx with rfl | hx
        · -- the next price is valid no later than the one that is in force when the interval starts
          cases rest with
          | nil => exact absurd hi (Nat.not_lt_zero _ ∘ Nat.lt_of_succ_lt_succ)
          | cons q rest =>
            have hlt : i < (q :: rest).length := Nat.lt_of_succ_lt_succ hi
            have hle : q.validSince ≤ (q :: rest)[i].validSince := by
              cases i with
              | zero => exact le_refl _
              | succ i =>
                exact (List.pairwise_cons.1 (List.pairwise_cons.1 hasc).2).1 _ (List.getElem_mem _)
            have := hearly _ (List.getElem?_eq_getElem hlt)
            simp only [validUntil]
            omega
        · exact hzero x hx

end

/-! ## The loop -/

section

variable {storage : CellStorageStat} {isMc : Bool} {start now : Nat} {pricing rest : List StoragePrices}
  {p : StoragePrices}

def lowOf (storage : CellStorageStat) (isMc : Bool) (x : StoragePrices × Nat) : Int :=
  lowPart x.2 (low storage isMc x.1)

def middleOf (storage : CellStorageStat) (isMc : Bool) (x : StoragePrices × Nat) : Int :=
  middlePart x.2 (low storage isMc x.1) (word (high storage isMc x.1))

def topOf (storage : CellStorageStat) (isMc : Bool) (x : StoragePrices × Nat) : Int :=
  topPart x.2 (word (high storage isMc x.1))

theorem of_seconds_zero {x : StoragePrices × Nat} (hx : x.2 = 0) :
    lowOf storage isMc x = 0 ∧ middleOf storage isMc x = 0 ∧ topOf storage isMc x = 0 := by
  unfold lowOf middleOf topOf lowPart middlePart topPart
  rw [hx]
  simp

/-- The sums of the digits, after all prices, unless a check fails. -/
theorem addPayments_spec (hnow : now < 4294967296) (hwords : ∀ q ∈ pricing, Words storage q)
    (hasc : Ascending pricing) {upto : Nat}
    (hupto : ∀ q ∈ pricing.head?, upto = max start q.validSince ∨ now ≤ upto ∧ now ≤ q.validSince)
    (hlater : ∀ q ∈ pricing.tail, start ≤ q.validSince) {sum : List Int} {a b c : Int} (ha : word a = a)
    (hb : word b = b) (hc : word c = c) (hsum : Digits sum a b c) :
    ((∃ x ∈ charged start now pricing, 0 < x.2 ∧ word (high storage isMc x.1) < 0) ∧
        addPayments now storage isMc pricing upto sum = none) ∨
      ((∀ x ∈ charged start now pricing, 0 < x.2 → 0 ≤ word (high storage isMc x.1)) ∧
        ∃ sum', addPayments now storage isMc pricing upto sum = some sum' ∧
          Digits sum' (word (a + total (lowOf storage isMc) (charged start now pricing)))
            (word (b + total (middleOf storage isMc) (charged start now pricing)))
            (word (c + total (topOf storage isMc) (charged start now pricing)))) := by
  induction pricing generalizing upto sum a b c with
  | nil =>
    right
    refine ⟨by rintro x ⟨⟩, sum, rfl, ?_⟩
    simp only [charged, total, add_zero, ha, hb, hc]
    exact hsum
  | cons p rest ih =>
    have hrest := (List.pairwise_cons.1 hasc).2
    have hhead := hupto p rfl
    by_cases hdone : upto < now
    · have hupto : upto = max start p.validSince := by
        rcases hhead with h | h
        · exact h
        · omega
      -- where the next prices are concerned, the loop is where they start or past the end
      have hnext : ∀ q ∈ rest.head?, validUntil now rest = max start q.validSince ∨
          now ≤ validUntil now rest ∧ now ≤ q.validSince := by
        cases rest with
        | nil => rintro q ⟨⟩
        | cons q rest =>
          rintro r hr
          cases hr
          have := hlater q List.mem_cons_self
          simp only [validUntil]
          omega
      have hlater' : ∀ q ∈ rest.tail, start ≤ q.validSince := fun q hq => hlater q (List.mem_of_mem_tail hq)
      have hwords' : ∀ q ∈ rest, Words storage q := fun q hq => hwords q (List.mem_cons_of_mem p hq)
      by_cases hsome : upto < validUntil now rest
      · have hle := validUntil_le_now now rest
        have hseconds : 0 < validUntil now rest - upto ∧ validUntil now rest - upto < 4294967296 := by omega
        have hdef : addPayments now storage isMc (p :: rest) upto sum =
            (addPartialStoragePayment sum (validUntil now rest - upto) p storage isMc).bind
              (addPayments now storage isMc rest (validUntil now rest)) := by
          rw [addPayments, if_pos hdone, if_pos hsome]
        have hcharged : charged start now (p :: rest) =
            (p, validUntil now rest - upto) :: charged start now rest := by rw [charged, hupto]
        rw [hdef, hcharged]
        rcases @addPartialStoragePayment_spec storage isMc p sum a b c hsum hb hc (hwords p List.mem_cons_self) _
          hseconds with ⟨hneg, hnone⟩ | ⟨hpos, sum', hsome, hsum'⟩
        · left
          exact ⟨⟨_, List.mem_cons_self, hseconds.1, hneg⟩, by rw [hnone]; rfl⟩
        · rw [hsome, Option.bind_some]
          rcases ih hwords' hrest hnext hlater' (word_word _) (word_word _) (word_word _) hsum' with
            ⟨⟨x, hx, hfail⟩, hnone⟩ | ⟨hall, sum'', hdone, hsum''⟩
          · left
            exact ⟨⟨x, List.mem_cons_of_mem _ hx, hfail⟩, hnone⟩
          · right
            refine ⟨List.forall_mem_cons.2 ⟨fun _ => hpos, hall⟩, sum'', hdone, ?_⟩
            rw [word_word_add, word_word_add, word_word_add, add_assoc, add_assoc, add_assoc] at hsum''
            exact hsum''
      · have hzero : validUntil now rest - max start p.validSince = 0 := by omega
        have hdef : addPayments now storage isMc (p :: rest) upto sum =
            addPayments now storage isMc rest (validUntil now rest) sum := by
          rw [addPayments, if_pos hdone, if_neg hsome]
        obtain ⟨hl, hm, ht⟩ := @of_seconds_zero storage isMc (p, 0) rfl
        rw [hdef, charged, hzero, total, total, total, hl, hm, ht, zero_add, zero_add, zero_add]
        rcases ih hwords' hrest hnext hlater' ha hb hc hsum with ⟨⟨x, hx, hfail⟩, hnone⟩ | ⟨hall, hdone⟩
        · left
          exact ⟨⟨x, List.mem_cons_of_mem _ hx, hfail⟩, hnone⟩
        · right
          exact ⟨List.forall_mem_cons.2 ⟨fun h => absurd h (lt_irrefl 0), hall⟩, hdone⟩
    · -- the interval has ended
      right
      have hzero : ∀ x ∈ charged start now (p :: rest), x.2 = 0 := by
        rcases hhead with h | h
        · rcases le_or_gt now p.validSince with hlate | hlate
          · exact charged_late hasc hlate
          · rintro x hx
            have hstart : now ≤ start := by omega
            rcases List.mem_cons.1 hx with rfl | hx
            · have := validUntil_le_now now rest
              simp only
              omega
            · cases rest with
              | nil => cases hx
              | cons q rest => exact charged_late hrest (hstart.trans (hlater q List.mem_cons_self)) x hx
        · exact charged_late hasc h.2
      refine ⟨fun x hx h => absurd h (by rw [hzero x hx]; exact lt_irrefl 0), sum, ?_, ?_⟩
      · rw [addPayments, if_neg hdone]
      · rw [total_eq_zero fun x hx => (of_seconds_zero (hzero x hx)).1,
          total_eq_zero fun x hx => (of_seconds_zero (hzero x hx)).2.1,
          total_eq_zero fun x hx => (of_seconds_zero (hzero x hx)).2.2, add_zero, add_zero, add_zero, ha, hb, hc]
        exact hsum

end

/-! ## The outcome -/

/-- The seconds that are paid for start with the first prices. -/
def payFrom (pricing : List StoragePrices) (lastPaid : Nat) : Nat :=
  match pricing with
  | [] => lastPaid
  | first :: _ => max lastPaid first.validSince

section

variable {storage : CellStorageStat} {isMc : Bool} {lastPaid now : Nat} {pricing : List StoragePrices}

theorem walkBack_spec (pricing : List StoragePrices) (lastPaid i : Nat) :
    walkBack pricing lastPaid i ≤ i ∧
      (∀ j p, walkBack pricing lastPaid i ≤ j → j < i → pricing[j]? = some p → lastPaid < p.validSince) ∧
      ∀ p, 0 < walkBack pricing lastPaid i → pricing[walkBack pricing lastPaid i - 1]? = some p →
        p.validSince ≤ lastPaid := by
  induction i with
  | zero => exact ⟨le_refl 0, fun j p _ hj => absurd hj (Nat.not_lt_zero j), fun p h => absurd h (lt_irrefl 0)⟩
  | succ i ih =>
    rw [walkBack]
    split_ifs with hlater
    · obtain ⟨hle, hlast, hearly⟩ := ih
      refine ⟨hle.trans (Nat.le_succ i), fun j p h0 h1 hp => ?_, hearly⟩
      rcases Nat.lt_succ_iff_lt_or_eq.1 h1 with h1 | rfl
      · exact hlast j p h0 h1 hp
      · rw [hp] at hlater
        simpa using hlater
    · refine ⟨le_refl _, fun j p h0 h1 => absurd h1 (by omega), fun p _ hp => ?_⟩
      rw [Nat.add_sub_cancel] at hp
      rw [hp] at hlater
      simpa using hlater

/-- Where an interval is not empty, the fee is what the sums of the digits make of it. -/
theorem computeStorageFees_spec (hnow : now < 4294967296) (hwords : ∀ q ∈ pricing, Words storage q)
    (hasc : Ascending pricing) (hpaid : 0 < lastPaid) (hstart : payFrom pricing lastPaid < now) (hne : pricing ≠ []) :
    ((∃ x ∈ charged (payFrom pricing lastPaid) now pricing, 0 < x.2 ∧ word (high storage isMc x.1) < 0) ∧
        computeStorageFees now pricing storage lastPaid false isMc = none) ∨
      ((∀ x ∈ charged (payFrom pricing lastPaid) now pricing, 0 < x.2 → 0 ≤ word (high storage isMc x.1)) ∧
        ∃ sum, computeStorageFees now pricing storage lastPaid false isMc = some (some (rshift 16 1 sum)) ∧
          Digits sum (word (total (lowOf storage isMc) (charged (payFrom pricing lastPaid) now pricing)))
            (word (total (middleOf storage isMc) (charged (payFrom pricing lastPaid) now pricing)))
            (word (total (topOf storage isMc) (charged (payFrom pricing lastPaid) now pricing)))) := by
  cases pricing with
  | nil => exact absurd rfl hne
  | cons first others =>
    obtain ⟨pricing, hpricing⟩ : ∃ pricing, pricing = first :: others := ⟨_, rfl⟩
    obtain ⟨start, hfrom⟩ : ∃ start, start = payFrom (first :: others) lastPaid := ⟨_, rfl⟩
    have hfrom' : start = max lastPaid first.validSince := hfrom
    obtain ⟨i, hi⟩ : ∃ i, i = walkBack pricing lastPaid pricing.length - 1 := ⟨_, rfl⟩
    have hdef : computeStorageFees now (first :: others) storage lastPaid false isMc =
        (addPayments now storage isMc (pricing.drop i) start [0]).map fun total => some (rshift 16 1 total) := by
      rw [← hfrom] at hstart
      rw [computeStorageFees, if_neg (by simp; omega), hi, hfrom', hpricing]
    rw [hdef, ← hfrom]
    rw [← hpricing] at hasc hwords ⊢
    obtain ⟨hle, hlate, hearly⟩ := walkBack_spec pricing lastPaid pricing.length
    have hlength : 0 < pricing.length := by
      rw [hpricing]
      exact Nat.succ_pos _
    have hlt : i < pricing.length := by omega
    -- the prices at `i` are in force when the interval starts, or they are the first ones
    have hcurrent : ∀ q ∈ pricing[i]?, q.validSince ≤ start := by
      rintro q hq
      rcases Nat.eq_zero_or_pos (walkBack pricing lastPaid pricing.length) with hzero | hpos
      · rw [hi, hzero, hpricing] at hq
        cases hq
        rw [hfrom']
        exact le_max_right _ _
      · rw [hi] at hq
        rw [hfrom']
        exact (hearly q hpos hq).trans (le_max_left _ _)
    have hlater : ∀ q ∈ (pricing.drop i).tail, start ≤ q.validSince := by
      rintro q hq
      rw [List.tail_drop] at hq
      obtain ⟨j, hj⟩ := List.mem_iff_getElem?.1 hq
      rw [List.getElem?_drop] at hj
      have hbound := (List.getElem?_eq_some_iff.1 hj).1
      have hpaid := hlate (i + 1 + j) q (by omega) hbound hj
      have hfirst : first.validSince ≤ q.validSince := by
        have hmem := List.mem_of_getElem? hj
        rw [hpricing] at hmem hasc
        rcases List.mem_cons.1 hmem with rfl | hmem
        · exact le_refl _
        · exact (List.pairwise_cons.1 hasc).1 q hmem
      rw [hfrom']
      omega
    obtain ⟨before, hbefore, hzero⟩ := @charged_early start now pricing i hcurrent hasc hlt
    have hloop := @addPayments_spec storage isMc start now (pricing.drop i) hnow
      (fun q hq => hwords q (List.mem_of_mem_drop hq)) (hasc.drop i) start (by
        rintro q hq
        rw [List.head?_drop] at hq
        left
        exact (max_eq_left (hcurrent q hq)).symm) hlater [0] 0 0 0 rfl rfl rfl (.one 0)
    simp only [zero_add] at hloop
    -- the prices before `i` add nothing
    have htotal : ∀ f : StoragePrices × Nat → Int, (∀ x : StoragePrices × Nat, x.2 = 0 → f x = 0) →
        total f (charged start now pricing) = total f (charged start now (pricing.drop i)) := by
      rintro f hf
      rw [hbefore]
      have hnone := fun x hx => hf x (hzero x hx)
      clear hbefore hzero
      induction before with
      | nil => rfl
      | cons x xs ih =>
        rw [List.cons_append, total, hnone x List.mem_cons_self, zero_add,
          ih fun y hy => hnone y (List.mem_cons_of_mem x hy)]
    rw [htotal _ fun x hx => (of_seconds_zero hx).1, htotal _ fun x hx => (of_seconds_zero hx).2.1,
      htotal _ fun x hx => (of_seconds_zero hx).2.2]
    rcases hloop with ⟨⟨x, hx, hpos, hneg⟩, hnone⟩ | ⟨hall, sum, hsum, hdigits⟩
    · left
      refine ⟨⟨x, ?_, hpos, hneg⟩, by rw [hnone]; rfl⟩
      rw [hbefore]
      exact List.mem_append_right _ hx
    · right
      refine ⟨fun x hx hpos => ?_, sum, by rw [hsum]; rfl, hdigits⟩
      rw [hbefore] at hx
      rcases List.mem_append.1 hx with hx | hx
      · exact absurd (hzero x hx) hpos.ne'
      · exact hall x hx hpos

end

end StoragePrices

end TonWallet.Block
