/-
What storage costs: the price of each second of an interval, summed up and rounded up to a nanogram. The fee that is
computed is this one exactly where the digits it is summed up in do not wrap.
-/
import TonWallet.Block.StoragePrices
import Mathlib.Algebra.BigOperators.Intervals
import Mathlib.Algebra.Order.BigOperators.Group.Finset

namespace TonWallet.Block.StoragePrices

open Lib.BalancedDigits Td.BigInt

/-! ## The seconds of an interval -/

/-- The prices in force at a second: the last ones that are valid by then. -/
def periodAt (pricing : List StoragePrices) (s : Nat) : Option StoragePrices :=
  pricing.findRev? fun p => p.validSince ≤ s

/-- What a second costs. -/
def rateAt (storage : CellStorageStat) (isMc : Bool) (pricing : List StoragePrices) (s : Nat) : Nat :=
  ((periodAt pricing s).map (rate storage isMc)).getD 0

/-- What the seconds of an interval cost, in parts of 65536. -/
def exactCharge (storage : CellStorageStat) (isMc : Bool) (pricing : List StoragePrices) (start now : Nat) : Nat :=
  ∑ s ∈ Finset.Ico start now, rateAt storage isMc pricing s

section

variable {storage : CellStorageStat} {isMc : Bool} {start now : Nat} {pricing rest : List StoragePrices}
  {p : StoragePrices}

theorem rateAt_cons_of_later {s : Nat} (hlater : ∀ q ∈ rest.head?, q.validSince ≤ s) (hne : rest ≠ []) :
    rateAt storage isMc (p :: rest) s = rateAt storage isMc rest s := by
  have hfound : (List.findRev? (fun p => decide (p.validSince ≤ s)) rest).isSome := by
    cases rest with
    | nil => exact absurd rfl hne
    | cons q rest =>
      rw [List.findRev?]
      cases List.findRev? (fun p => decide (p.validSince ≤ s)) rest with
      | none => simp only [decide_eq_true (hlater q rfl)]; rfl
      | some r => rfl
  unfold rateAt periodAt
  rw [List.findRev?]
  cases h : List.findRev? (fun p => decide (p.validSince ≤ s)) rest with
  | none =>
    rw [h] at hfound
    cases hfound
  | some r => rfl

theorem rateAt_cons_of_current {s : Nat} (hp : p.validSince ≤ s) (hlater : ∀ q ∈ rest, s < q.validSince) :
    rateAt storage isMc (p :: rest) s = rate storage isMc p := by
  have hnone : List.findRev? (fun p => decide (p.validSince ≤ s)) rest = none := by
    rw [List.findRev?_eq_find?_reverse, List.find?_eq_none]
    rintro q hq
    have := hlater q (List.mem_reverse.1 hq)
    simpa using this
  unfold rateAt periodAt
  rw [List.findRev?, hnone]
  simp only [decide_eq_true hp]
  rfl

theorem charged_congr {first : Nat} (hstart : start ≤ first) (hall : ∀ q ∈ pricing, first ≤ q.validSince) :
    charged first now pricing = charged start now pricing := by
  induction pricing with
  | nil => rfl
  | cons p rest ih =>
    have hp := hall p List.mem_cons_self
    rw [charged, charged, ih fun q hq => hall q (List.mem_cons_of_mem p hq), max_eq_right hp,
      max_eq_right (hstart.trans hp)]

/-- The charge is what the prices are charged for. -/
theorem exactCharge_eq (hasc : Ascending (p :: rest)) (hp : p.validSince ≤ start) :
    (exactCharge storage isMc (p :: rest) start now : Int) =
      total (fun x => x.2 * rate storage isMc x.1) (charged start now (p :: rest)) := by
  induction rest generalizing p start with
  | nil =>
    have hconst : ∀ s ∈ Finset.Ico start now, rateAt storage isMc [p] s = rate storage isMc p := by
      rintro s hs
      exact rateAt_cons_of_current (hp.trans (Finset.mem_Ico.1 hs).1) (by rintro q ⟨⟩)
    rw [exactCharge, Finset.sum_congr rfl hconst, Finset.sum_const, Nat.card_Ico, smul_eq_mul]
    simp only [charged, total, validUntil, max_eq_left hp, add_zero]
    push_cast
    rfl
  | cons q rest ih =>
    obtain ⟨hnext, hrest⟩ := List.pairwise_cons.1 hasc
    have hmid := hnext q List.mem_cons_self
    -- until the next prices are valid, and from then on
    have hsplit : exactCharge storage isMc (p :: q :: rest) start now =
        (min now q.validSince - start) * rate storage isMc p +
          exactCharge storage isMc (q :: rest) (max start q.validSince) now := by
      have hfirst : ∀ s ∈ Finset.Ico start (min now q.validSince),
          rateAt storage isMc (p :: q :: rest) s = rate storage isMc p := by
        rintro s hs
        obtain ⟨hs0, hs1⟩ := Finset.mem_Ico.1 hs
        have hq : s < q.validSince := lt_of_lt_of_le hs1 (min_le_right _ _)
        refine rateAt_cons_of_current (hp.trans hs0) (List.forall_mem_cons.2 ⟨hq, fun r hr => ?_⟩)
        exact lt_of_lt_of_le hq ((List.pairwise_cons.1 hrest).1 r hr)
      have hsecond : ∀ s ∈ Finset.Ico (max start q.validSince) now,
          rateAt storage isMc (p :: q :: rest) s = rateAt storage isMc (q :: rest) s := by
        rintro s hs
        refine rateAt_cons_of_later ?_ (List.cons_ne_nil _ _)
        rintro r hr
        cases hr
        exact (le_max_right _ _).trans (Finset.mem_Ico.1 hs).1
      have hconst : ∑ s ∈ Finset.Ico start (min now q.validSince), rateAt storage isMc (p :: q :: rest) s =
          (min now q.validSince - start) * rate storage isMc p := by
        rw [Finset.sum_congr rfl hfirst, Finset.sum_const, Nat.card_Ico, smul_eq_mul]
      unfold exactCharge
      rw [← hconst, ← Finset.sum_congr rfl hsecond]
      rcases le_total start (min now q.validSince) with hle | hle
      · rcases le_total now q.validSince with hnow | hnow
        · rw [min_eq_left hnow, Finset.Ico_eq_empty (show ¬max start q.validSince < now by omega), Finset.sum_empty,
            add_zero]
        · rw [min_eq_right hnow, max_eq_right (hle.trans (min_le_right _ _)),
            Finset.sum_Ico_consecutive _ (hle.trans (min_le_right _ _)) hnow]
      · rw [Finset.Ico_eq_empty (not_lt.2 hle), Finset.sum_empty, zero_add]
        rcases le_total now start with hnow | hnow
        · rw [Finset.Ico_eq_empty (not_lt.2 hnow),
            Finset.Ico_eq_empty (show ¬max start q.validSince < now by omega)]
        · rcases le_total q.validSince start with hq | hq
          · rw [max_eq_left hq]
          · have : start = now ∨ start = q.validSince := by omega
            rcases this with h | h
            · rw [Finset.Ico_eq_empty (show ¬start < now by omega),
                Finset.Ico_eq_empty (show ¬max start q.validSince < now by omega)]
            · rw [max_eq_right hq, h]
    have hcharged : charged (max start q.validSince) now (q :: rest) = charged start now (q :: rest) := by
      rcases le_total start q.validSince with hle | hle
      · rw [max_eq_right hle]
        refine charged_congr hle (List.forall_mem_cons.2 ⟨le_refl _, (List.pairwise_cons.1 hrest).1⟩)
      · rw [max_eq_left hle]
    rw [hsplit, charged, total, max_eq_left hp]
    push_cast
    rw [ih hrest (le_max_right _ _), hcharged]
    rfl

end

/-! ## Where the sum is exact -/

/-- The price of a second, in parts of 2^52 for each of bits and cells, stays below the largest word in every period
that is charged, and so do the sums over the periods of what they add to the lowest and to the middle digit. -/
structure DigitsFit (storage : CellStorageStat) (isMc : Bool) (pricing : List StoragePrices) (start now : Nat) :
    Prop where
  price : ∀ x ∈ charged start now pricing, 0 < x.2 → high storage isMc x.1 < 9223372036854775808
  lowest : total (fun x => lowPart x.2 (low storage isMc x.1)) (charged start now pricing) ≤ 9223372036854775808
  middle : total (fun x => middlePart x.2 (low storage isMc x.1) (high storage isMc x.1))
    (charged start now pricing) < 9223372036854775808

/-- The fee for what is charged: nothing on an empty interval, and rounded up to a nanogram otherwise. -/
def exactFee (storage : CellStorageStat) (isMc : Bool) (pricing : List StoragePrices) (lastPaid now : Nat) :
    Option Int :=
  if now ≤ payFrom pricing lastPaid then none
  else some (((exactCharge storage isMc pricing (payFrom pricing lastPaid) now + 65535) / 65536 : Nat) : Int)

/-- The fee as a number. -/
def feeOf (r : Option (Option (List Int))) : Option (Option Int) := r.map fun fee => fee.map (value base)

section

variable {storage : CellStorageStat} {isMc : Bool} {start now : Nat} {pricing : List StoragePrices}

theorem total_le {f g : StoragePrices × Nat → Int} {xs : List (StoragePrices × Nat)} (h : ∀ x ∈ xs, f x ≤ g x) :
    total f xs ≤ total g xs := by
  induction xs with
  | nil => exact le_refl 0
  | cons x xs ih =>
    exact add_le_add (h x List.mem_cons_self) (ih fun y hy => h y (List.mem_cons_of_mem x hy))

theorem total_congr {f g : StoragePrices × Nat → Int} {xs : List (StoragePrices × Nat)} (h : ∀ x ∈ xs, f x = g x) :
    total f xs = total g xs := le_antisymm (total_le fun x hx => (h x hx).le) (total_le fun x hx => (h x hx).ge)

theorem total_add (f g : StoragePrices × Nat → Int) (xs : List (StoragePrices × Nat)) :
    total (fun x => f x + g x) xs = total f xs + total g xs := by
  induction xs with
  | nil => rfl
  | cons x xs ih =>
    rw [total, total, total, ih]
    ring

theorem total_mul (k : Int) (f : StoragePrices × Nat → Int) (xs : List (StoragePrices × Nat)) :
    total (fun x => k * f x) xs = k * total f xs := by
  induction xs with
  | nil => exact (mul_zero k).symm
  | cons x xs ih =>
    rw [total, total, ih]
    ring

/-- A period that is charged more makes the sum larger. -/
theorem total_add_le {f g : StoragePrices × Nat → Int} {xs : List (StoragePrices × Nat)} (h : ∀ x ∈ xs, f x ≤ g x)
    {k : Int} {y : StoragePrices × Nat} (hy : y ∈ xs) (hlt : f y + k ≤ g y) : total f xs + k ≤ total g xs := by
  induction xs with
  | nil => cases hy
  | cons x xs ih =>
    have hrest := total_le fun z hz => h z (List.mem_cons_of_mem x hz)
    have hx := h x List.mem_cons_self
    rw [total, total]
    rcases List.mem_cons.1 hy with rfl | hy
    · linarith
    · have := ih (fun z hz => h z (List.mem_cons_of_mem x hz)) hy
      linarith

/-- All the seconds together are no more than there are. -/
theorem total_seconds_le (hasc : Ascending pricing) (start now : Nat) :
    total (fun x => (x.2 : Int)) (charged start now pricing) ≤ now := by
  suffices h : ∀ q ∈ pricing.head?, total (fun x => (x.2 : Int)) (charged start now pricing) ≤
      (now - max start q.validSince : Nat) by
    cases pricing with
    | nil => exact Int.natCast_nonneg now
    | cons p rest => exact (h p rfl).trans (by omega)
  induction pricing with
  | nil => rintro q ⟨⟩
  | cons p rest ih =>
    rintro q hq
    cases hq
    rw [charged, total]
    cases rest with
    | nil => simp only [charged, total, validUntil, add_zero, le_refl]
    | cons q rest =>
      have hrest := ih (List.pairwise_cons.1 hasc).2 q rfl
      have hnext := (List.pairwise_cons.1 hasc).1 q List.mem_cons_self
      simp only [validUntil]
      omega

theorem lowOf_bounds (x : StoragePrices × Nat) : 0 ≤ lowOf storage isMc x := by
  unfold lowOf lowPart base
  omega

theorem middlePart_nonneg {seconds l : Int} (hseconds : 0 ≤ seconds) (hl : 0 ≤ l) (h : Int) :
    0 ≤ middlePart seconds l h := by
  have hprod : 0 ≤ seconds * l := mul_nonneg hseconds hl
  unfold middlePart base
  omega

theorem topPart_bounds {seconds h : Int} (hseconds : 0 ≤ seconds) (h0 : 0 ≤ h) (h1 : h < 9223372036854775808) :
    0 ≤ topPart seconds h ∧ topPart seconds h ≤ 2048 * seconds := by
  have hge : 0 ≤ seconds * h := mul_nonneg hseconds h0
  have hle : seconds * h ≤ seconds * 9223372036854775808 := mul_le_mul_of_nonneg_left h1.le hseconds
  unfold topPart base
  omega

/-- The sums of the digits are worth what is charged, less what the wrapped prices are short of. -/
theorem value_totals (xs : List (StoragePrices × Nat)) :
    total (lowOf storage isMc) xs + base * (total (middleOf storage isMc) xs + base * total (topOf storage isMc) xs) =
      total (fun x => x.2 * (low storage isMc x.1 + base * word (high storage isMc x.1))) xs := by
  rw [← total_mul, ← total_add, ← total_mul, ← total_add]
  exact total_congr fun x _ => value_parts _ _ _

end

/-- The fee is what is charged in the interval. -/
def Exact (storage : CellStorageStat) (isMc : Bool) (pricing : List StoragePrices) (lastPaid now : Nat) : Prop :=
  feeOf (computeStorageFees now pricing storage lastPaid false isMc) =
    some (exactFee storage isMc pricing lastPaid now)

section

variable {storage : CellStorageStat} {isMc : Bool} {lastPaid now : Nat} {pricing : List StoragePrices}

theorem exactCharge_payFrom (hasc : Ascending pricing) (hne : pricing ≠ []) :
    (exactCharge storage isMc pricing (payFrom pricing lastPaid) now : Int) =
      total (fun x => x.2 * (low storage isMc x.1 + base * high storage isMc x.1))
        (charged (payFrom pricing lastPaid) now pricing) := by
  cases pricing with
  | nil => exact absurd rfl hne
  | cons first rest =>
    have hfrom : payFrom (first :: rest) lastPaid = max lastPaid first.validSince := rfl
    rw [hfrom, exactCharge_eq hasc (le_max_right _ _)]
    refine total_congr fun x _ => ?_
    rw [rate_eq]

/-- With fitting digits the fee is exact, and a digit that does not fit shows. -/
theorem exact_iff_of_pos (hnow : now < 4294967296) (hwords : ∀ q ∈ pricing, Words storage q) (hasc : Ascending pricing)
    (hpaid : 0 < lastPaid) (hstart : payFrom pricing lastPaid < now) (hne : pricing ≠ []) :
    Exact storage isMc pricing lastPaid now ↔ DigitsFit storage isMc pricing (payFrom pricing lastPaid) now := by
  have hspec := @computeStorageFees_spec storage isMc lastPaid now pricing hnow hwords hasc hpaid hstart hne
  have hcharge := @exactCharge_payFrom storage isMc lastPaid now pricing hasc hne
  obtain ⟨xs, hxs⟩ : ∃ xs, xs = charged (payFrom pricing lastPaid) now pricing := ⟨_, rfl⟩
  obtain ⟨charge, hcharged⟩ : ∃ n, n = exactCharge storage isMc pricing (payFrom pricing lastPaid) now := ⟨_, rfl⟩
  rw [← hxs] at hspec hcharge
  rw [← hcharged] at hcharge
  have hwrapped := fun x => @high_nonneg storage isMc x
  rcases hspec with ⟨⟨x, hx, hpos, hneg⟩, hnone⟩ | ⟨hall, sum, hsum, hdigits⟩
  · constructor
    · intro h
      rw [Exact, hnone] at h
      cases h
    · intro h
      rw [hxs] at hx
      have hfit := h.price x hx hpos
      have := hwrapped x.1
      rw [word_of_fits (by omega) hfit] at hneg
      omega
  · have hexact : Exact storage isMc pricing lastPaid now ↔
        value base (rshift 16 1 sum) = (charge + 65535) / 65536 := by
      rw [Exact, hsum, exactFee, if_neg (not_le.2 hstart), ← hcharged]
      simp only [feeOf, Option.map_some, Option.some.injEq]
      rfl
    -- where a price of a second wraps, what is paid for the seconds is short of what is due
    have hmul : ∀ x ∈ xs, (x.2 : Int) * (low storage isMc x.1 + base * word (high storage isMc x.1)) ≤
        x.2 * (low storage isMc x.1 + base * high storage isMc x.1) := by
      rintro x _
      have hle := word_le (show -9223372036854775808 ≤ high storage isMc x.1 by have := hwrapped x.1; omega)
      refine mul_le_mul_of_nonneg_left ?_ (Int.natCast_nonneg _)
      unfold base
      omega
    have hvalue := @value_totals storage isMc xs
    have htop : 0 ≤ total (topOf storage isMc) xs ∧ total (topOf storage isMc) xs ≤ 2048 * now := by
      have hbounds : ∀ x ∈ xs, 0 ≤ topOf storage isMc x ∧ topOf storage isMc x ≤ 2048 * x.2 := by
        rintro x hx
        rcases Nat.eq_zero_or_pos x.2 with hzero | hpos
        · rw [(of_seconds_zero hzero).2.2, hzero]
          exact ⟨le_refl 0, le_refl 0⟩
        · exact topPart_bounds (Int.natCast_nonneg _) (hall x hx hpos) (word_bounds _).2
      have hseconds := total_seconds_le hasc (payFrom pricing lastPaid) now
      rw [← hxs] at hseconds
      constructor
      · rw [← @total_eq_zero (fun _ => 0) xs fun _ _ => rfl]
        exact total_le fun x hx => (hbounds x hx).1
      · refine (total_le fun x hx => (hbounds x hx).2).trans ?_
        rw [total_mul]
        omega
    have hlow : 0 ≤ total (lowOf storage isMc) xs := by
      rw [← @total_eq_zero (fun _ => 0) xs fun _ _ => rfl]
      exact total_le fun x _ => lowOf_bounds x
    have hmiddle : 0 ≤ total (middleOf storage isMc) xs := by
      rw [← @total_eq_zero (fun _ => 0) xs fun _ _ => rfl]
      exact total_le fun x _ => middlePart_nonneg (Int.natCast_nonneg _) low_bounds.1 _
    have htopWord : word (total (topOf storage isMc) xs) = total (topOf storage isMc) xs :=
      word_of_fits (by omega) (by omega)
    have hresult := hdigits.value_rshift
    rw [htopWord, sub_eq_add_neg, word_word_add, ← sub_eq_add_neg] at hresult
    have hle0 := word_le (show -9223372036854775808 ≤ total (lowOf storage isMc) xs - 1 by omega)
    have hle1 := word_le (show -9223372036854775808 ≤ total (middleOf storage isMc) xs by omega)
    have hshort := total_le hmul
    rw [← hcharge, ← hvalue] at hshort
    -- what is missing cannot be hidden by the rounding
    have hmissing : word (total (lowOf storage isMc) xs - 1) +
        base * (word (total (middleOf storage isMc) xs) + base * total (topOf storage isMc) xs) +
          18446744073709551616 ≤ (charge : Int) - 1 → ¬Exact storage isMc pricing lastPaid now := by
      rintro hmissing h
      rw [hexact, hresult] at h
      omega
    by_cases hprice : ∀ x ∈ xs, 0 < x.2 → high storage isMc x.1 < 9223372036854775808
    · have hsame : ∀ x ∈ xs, 0 < x.2 → word (high storage isMc x.1) = high storage isMc x.1 := fun x hx hpos =>
        word_of_fits (by have := hwrapped x.1; omega) (hprice x hx hpos)
      have hmid : total (middleOf storage isMc) xs =
          total (fun x => middlePart x.2 (low storage isMc x.1) (high storage isMc x.1)) xs := by
        refine total_congr fun x hx => ?_
        rcases Nat.eq_zero_or_pos x.2 with hzero | hpos
        · rw [(of_seconds_zero hzero).2.1, middlePart, hzero]
          simp
        · rw [middleOf, hsame x hx hpos]
      have hdue : total (lowOf storage isMc) xs +
          base * (total (middleOf storage isMc) xs + base * total (topOf storage isMc) xs) = charge := by
        rw [hvalue, hcharge]
        refine total_congr fun x hx => ?_
        rcases Nat.eq_zero_or_pos x.2 with hzero | hpos
        · rw [hzero]
          simp
        · rw [hsame x hx hpos]
      by_cases hfit : total (lowOf storage isMc) xs ≤ 9223372036854775808 ∧
          total (middleOf storage isMc) xs < 9223372036854775808
      · have hlowWord : word (total (lowOf storage isMc) xs - 1) = total (lowOf storage isMc) xs - 1 :=
          word_of_fits (by omega) (by omega)
        have hmidWord : word (total (middleOf storage isMc) xs) = total (middleOf storage isMc) xs :=
          word_of_fits (by omega) hfit.2
        rw [hlowWord, hmidWord] at hresult
        constructor
        · intro _
          refine ⟨hxs ▸ hprice, hxs ▸ hfit.1, ?_⟩
          rw [← hxs, ← hmid]
          exact hfit.2
        · intro _
          rw [hexact, hresult]
          omega
      · constructor
        · intro h
          refine absurd h (hmissing ?_)
          by_cases hlowFit : total (lowOf storage isMc) xs ≤ 9223372036854775808
          · have := word_add_le fun h => hfit ⟨hlowFit, h⟩
            unfold base at hdue ⊢
            omega
          · have := @word_add_le (total (lowOf storage isMc) xs - 1) (by omega)
            unfold base at hdue ⊢
            linarith
        · rintro ⟨_, h0, h1⟩
          rw [← hxs] at h0 h1
          rw [← hmid] at h1
          exact absurd ⟨h0, h1⟩ hfit
    · constructor
      · intro h
        refine absurd h (hmissing ?_)
        obtain ⟨x, hx, hpos, hlarge⟩ : ∃ x ∈ xs, 0 < x.2 ∧ ¬high storage isMc x.1 < 9223372036854775808 := by
          by_contra hnone
          refine hprice fun x hx hpos => ?_
          by_contra hlarge
          exact hnone ⟨x, hx, hpos, hlarge⟩
        have hword := word_add_le hlarge
        have hadd : (x.2 : Int) * (low storage isMc x.1 + base * word (high storage isMc x.1)) + 18446744073709551616 ≤
            x.2 * (low storage isMc x.1 + base * high storage isMc x.1) := by
          have hgap : low storage isMc x.1 + base * word (high storage isMc x.1) + 18446744073709551616 ≤
              low storage isMc x.1 + base * high storage isMc x.1 := by
            unfold base
            linarith
          nlinarith
        have hlost := total_add_le hmul hx hadd
        rw [← hcharge, ← hvalue] at hlost
        unfold base at hlost ⊢
        omega
      · rintro h
        exact absurd (hxs ▸ h.price) hprice

end

/-! ## The fee of an account -/

/-- The calls that are meant: some prices in the order of their time, words for the usage and the prices, and an
interval that was not paid for yet. -/
structure Meant (storage : CellStorageStat) (pricing : List StoragePrices) (lastPaid now : Nat) : Prop where
  some_prices : pricing ≠ []
  ascending : Ascending pricing
  words : ∀ p ∈ pricing, Words storage p
  paid : 0 < lastPaid
  unpaid : lastPaid < now
  seconds : now < 4294967296

/-- The digits of all that is charged up to `now` fit. -/
def Fits (storage : CellStorageStat) (isMc : Bool) (pricing : List StoragePrices) (lastPaid now : Nat) : Prop :=
  DigitsFit storage isMc pricing (payFrom pricing lastPaid) now

/-- The fee as an amount, nothing where there is no number. -/
def due (storage : CellStorageStat) (isMc : Bool) (pricing : List StoragePrices) (lastPaid now : Nat) : Int :=
  ((feeOf (computeStorageFees now pricing storage lastPaid false isMc)).getD none).getD 0

section

variable {storage storage' : CellStorageStat} {isMc : Bool} {lastPaid mid now now' : Nat} {pricing : List StoragePrices}

/-- Nothing is charged on an empty interval. -/
theorem charged_of_le {start : Nat} (h : now ≤ start) : ∀ x ∈ charged start now pricing, x.2 = 0 := by
  induction pricing with
  | nil => rintro x ⟨⟩
  | cons p rest ih =>
    rintro x hx
    rcases List.mem_cons.1 hx with rfl | hx
    · have := validUntil_le_now now rest
      simp only
      omega
    · exact ih x hx

theorem digitsFit_of_zero {start : Nat} (h : ∀ x ∈ charged start now pricing, x.2 = 0) :
    DigitsFit storage isMc pricing start now := by
  refine ⟨fun x hx hpos => absurd (h x hx) hpos.ne', ?_, ?_⟩
  · rw [total_eq_zero fun x hx => by rw [lowPart, h x hx]; simp]
    decide
  · rw [total_eq_zero fun x hx => by rw [middlePart, h x hx]; simp]
    decide

/-- The fee is exact where the digits fit, and nowhere else. -/
theorem Meant.exact_iff (h : Meant storage pricing lastPaid now) :
    Exact storage isMc pricing lastPaid now ↔ Fits storage isMc pricing lastPaid now := by
  rcases lt_or_ge (payFrom pricing lastPaid) now with hstart | hempty
  · exact exact_iff_of_pos h.seconds h.words h.ascending h.paid hstart h.some_prices
  · have hnull : computeStorageFees now pricing storage lastPaid false isMc = some none := by
      obtain ⟨first, rest, hpricing⟩ := List.exists_cons_of_ne_nil h.some_prices
      rw [hpricing, payFrom] at hempty
      have hpaid := h.paid
      have hunpaid := h.unpaid
      rw [hpricing, computeStorageFees, if_pos (by omega)]
    have hexact : Exact storage isMc pricing lastPaid now := by
      rw [Exact, hnull, exactFee, if_pos hempty]
      rfl
    exact iff_of_true hexact (digitsFit_of_zero (charged_of_le hempty))

/-- The amount that is due where the digits fit. -/
theorem Meant.due_eq (h : Meant storage pricing lastPaid now) (hfits : Fits storage isMc pricing lastPaid now) :
    due storage isMc pricing lastPaid now =
      ((exactCharge storage isMc pricing (payFrom pricing lastPaid) now + 65535) / 65536 : Nat) := by
  have hexact : feeOf _ = _ := h.exact_iff.2 hfits
  rw [due, hexact, exactFee]
  split_ifs with hempty
  · rw [exactCharge, Finset.Ico_eq_empty (not_lt.2 hempty), Finset.sum_empty]
    rfl
  · rfl

theorem exactCharge_mono_now {start : Nat} (hnow : now ≤ now') :
    exactCharge storage isMc pricing start now ≤ exactCharge storage isMc pricing start now' :=
  Finset.sum_le_sum_of_subset (Finset.Ico_subset_Ico_right hnow)

theorem rate_mono (hcells : storage.cells ≤ storage'.cells) (hbits : storage.bits ≤ storage'.bits) (p : StoragePrices) :
    rate storage isMc p ≤ rate storage' isMc p :=
  Nat.add_le_add (Nat.mul_le_mul_right _ hbits) (Nat.mul_le_mul_right _ hcells)

theorem exactCharge_mono_usage {start : Nat} (hcells : storage.cells ≤ storage'.cells)
    (hbits : storage.bits ≤ storage'.bits) :
    exactCharge storage isMc pricing start now ≤ exactCharge storage' isMc pricing start now := by
  refine Finset.sum_le_sum fun s _ => ?_
  unfold rateAt
  cases periodAt pricing s with
  | none => exact le_refl 0
  | some p => exact rate_mono hcells hbits p

/-- An interval costs what its two parts cost. -/
theorem exactCharge_split (hne : pricing ≠ []) (hmid : lastPaid < mid) (hnow : mid < now) :
    exactCharge storage isMc pricing (payFrom pricing lastPaid) now =
      exactCharge storage isMc pricing (payFrom pricing lastPaid) mid +
        exactCharge storage isMc pricing (payFrom pricing mid) now := by
  obtain ⟨first, rest, rfl⟩ := List.exists_cons_of_ne_nil hne
  unfold exactCharge
  simp only [payFrom]
  rcases le_total mid first.validSince with hearly | hlate
  · rw [Finset.Ico_eq_empty (show ¬max lastPaid first.validSince < mid by omega), Finset.sum_empty, zero_add,
      max_eq_right hearly, max_eq_right (hmid.le.trans hearly)]
  · rw [max_eq_left hlate, Finset.sum_Ico_consecutive _ (max_le hmid.le hlate) hnow.le]

theorem lowPart_lt (seconds l : Int) : lowPart seconds l ≤ 4503599627370495 := by
  unfold lowPart base
  omega

/-- Few prices, each with a price of a second that is not too large, leave room in every digit. -/
theorem fits_of_length (h : Meant storage pricing lastPaid now) (hlength : pricing.length ≤ 2047)
    (hprice : ∀ p ∈ pricing, rate storage isMc p < 2 ^ 115) : Fits storage isMc pricing lastPaid now := by
  have hmem : ∀ x ∈ charged (payFrom pricing lastPaid) now pricing, x.1 ∈ pricing ∧ x.2 ≤ now := by
    clear h hlength hprice
    generalize payFrom pricing lastPaid = start
    induction pricing with
    | nil => rintro x ⟨⟩
    | cons p rest ih =>
      rintro x hx
      rcases List.mem_cons.1 hx with rfl | hx
      · exact ⟨List.mem_cons_self, (Nat.sub_le _ _).trans (validUntil_le_now now rest)⟩
      · exact ⟨List.mem_cons_of_mem p (ih x hx).1, (ih x hx).2⟩
  have hcount : ∀ (f : StoragePrices × Nat → Int) (k : Int),
      (∀ x ∈ charged (payFrom pricing lastPaid) now pricing, f x ≤ k) →
      total f (charged (payFrom pricing lastPaid) now pricing) ≤ pricing.length * k := by
    clear h hlength hprice hmem
    generalize payFrom pricing lastPaid = start
    rintro f k hk
    induction pricing with
    | nil => simp [charged, total]
    | cons p rest ih =>
      have hrest := ih fun x hx => hk x (List.mem_cons_of_mem _ hx)
      have hp := hk _ List.mem_cons_self
      rw [charged, total, List.length_cons]
      push_cast
      linarith
  have hseconds := h.seconds
  refine ⟨fun x hx _ => ?_, ?_, ?_⟩
  · have hrate := hprice x.1 (hmem x hx).1
    have hsum := rate_eq storage isMc x.1
    have hlow := @low_bounds storage isMc x.1
    unfold base at hsum
    omega
  · refine (hcount _ 4503599627370495 fun x _ => lowPart_lt _ _).trans ?_
    have : (pricing.length : Int) ≤ 2047 := by exact_mod_cast hlength
    linarith
  · refine lt_of_le_of_lt (hcount _ 4503608217305087 fun x hx => ?_) ?_
    · have hlow := @low_bounds storage isMc x.1
      have hx := (hmem x hx).2
      have hprod : (x.2 : Int) * low storage isMc x.1 ≤ 4294967295 * 9007199254740991 :=
        mul_le_mul (by omega) (by omega) hlow.1 (by decide)
      unfold middlePart base
      omega
    · have : (pricing.length : Int) ≤ 2047 := by exact_mod_cast hlength
      linarith

/-- The fee is the price of all seconds of the interval, rounded up, just where the digits fit. There it grows with the
time and with the usage, and an interval that is paid for in two parts costs at most one more. -/
theorem computeStorageFees_exact_iff (h : Meant storage pricing lastPaid now) :
    (Exact storage isMc pricing lastPaid now ↔ Fits storage isMc pricing lastPaid now) ∧
      (Fits storage isMc pricing lastPaid now →
        (∀ now', now ≤ now' → Meant storage pricing lastPaid now' → Fits storage isMc pricing lastPaid now' →
          due storage isMc pricing lastPaid now ≤ due storage isMc pricing lastPaid now') ∧
        (∀ storage', storage.cells ≤ storage'.cells → storage.bits ≤ storage'.bits →
          Meant storage' pricing lastPaid now → Fits storage' isMc pricing lastPaid now →
          due storage isMc pricing lastPaid now ≤ due storage' isMc pricing lastPaid now) ∧
        ∀ mid, lastPaid < mid → mid < now → Fits storage isMc pricing lastPaid mid → Fits storage isMc pricing mid now →
          due storage isMc pricing lastPaid now ≤
              due storage isMc pricing lastPaid mid + due storage isMc pricing mid now ∧
            due storage isMc pricing lastPaid mid + due storage isMc pricing mid now ≤
              due storage isMc pricing lastPaid now + 1) := by
  refine ⟨h.exact_iff, fun hfits => ⟨?_, ?_, ?_⟩⟩
  · rintro now' hnow h' hfits'
    have hmono := @exactCharge_mono_now storage isMc now now' pricing (payFrom pricing lastPaid) hnow
    rw [h.due_eq hfits, h'.due_eq hfits']
    omega
  · rintro storage' hcells hbits h' hfits'
    have hmono := @exactCharge_mono_usage storage storage' isMc now pricing (payFrom pricing lastPaid) hcells hbits
    rw [h.due_eq hfits, h'.due_eq hfits']
    omega
  · rintro mid hmid hnow hfirst hsecond
    have h0 : Meant storage pricing lastPaid mid :=
      ⟨h.some_prices, h.ascending, h.words, h.paid, hmid, hnow.trans h.seconds⟩
    have h1 : Meant storage pricing mid now :=
      ⟨h.some_prices, h.ascending, h.words, Nat.lt_of_le_of_lt (Nat.zero_le _) hmid, hnow, h.seconds⟩
    have hsplit := @exactCharge_split storage isMc lastPaid mid now pricing h.some_prices hmid hnow
    rw [h.due_eq hfits, h0.due_eq hfirst, h1.due_eq hsecond, hsplit]
    omega

end

/-- Two prices, of which the second one is valid from second 50 on. -/
def Sample.pricing : List StoragePrices := [⟨10, 1, 500, 1000, 500000⟩, ⟨50, 2, 1000, 2000, 1000000⟩]

theorem Sample.meant : Meant ⟨10, 1000⟩ Sample.pricing 5 100 := by
  refine ⟨List.cons_ne_nil _ _, ?_, ?_, by decide, by decide, by decide⟩
  · simp [Ascending, Sample.pricing]
  · intro p hp
    rcases List.mem_pair.1 hp with rfl | rfl <;> constructor <;> decide

theorem computeStorageFees_exact_sample :
    Exact ⟨10, 1000⟩ false Sample.pricing 5 100 ∧ due ⟨10, 1000⟩ false Sample.pricing 5 100 = 13 :=
  ⟨(computeStorageFees_exact_iff Sample.meant).1.2 (fits_of_length Sample.meant (by decide) (by
    intro p hp
    rcases List.mem_pair.1 hp with rfl | rfl <;> decide)), by decide⟩

/-- For so many cells at such a price nothing is charged. -/
theorem computeStorageFees_not_exact :
    Meant ⟨2 ^ 60, 0⟩ [⟨1, 0, 2 ^ 60, 0, 0⟩] 1 2 ∧ ¬Exact ⟨2 ^ 60, 0⟩ false [⟨1, 0, 2 ^ 60, 0, 0⟩] 1 2 := by
  constructor
  · refine ⟨List.cons_ne_nil _ _, List.pairwise_singleton _ _, ?_, by decide, by decide, by decide⟩
    intro p hp
    rw [List.mem_singleton.1 hp]
    constructor <;> decide
  · unfold Exact
    decide

end TonWallet.Block.StoragePrices
