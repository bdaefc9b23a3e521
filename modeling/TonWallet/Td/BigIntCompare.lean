/-
How wide integers are compared: normal ones by their digits (`cmp`, `==`, and `cmp` with a word), and those that are not
normal from the top digits down, until a leading part is too large for the digits below it (`sgn_un`, `cmp_un`). The word
is compared as one digit, and one of the loops of `cmp_un` has its lower limit on the wrong side of zero.
-/
import TonWallet.Td.BigIntBits

namespace TonWallet.Td.BigInt

open Lib.BalancedDigits

/-! ## Comparisons -/

/-- `eq_any`. -/
def eqDigits (xs ys : List Int) : Bool := xs = ys

/-- The loop of `sgn_un_any`. -/
def sgnUnBelow : Int → List Int → Int
  | v, [] => v.sign
  | v, w :: ws =>
    let v := word (v * base)
    if w ≥ word (word (-v) + maxDenorm) then 1
    else if w ≤ word (word (-v) - maxDenorm) then -1
    else sgnUnBelow (word (v + w)) ws

/-- `sgn_un_any`. -/
def sgnUn (ds : List Int) : Int :=
  match ds.reverse with
  | [] => 0
  | [v] => v.sign
  | v :: ws => if v ≥ maxDenorm then 1 else if v ≤ -maxDenorm then -1 else sgnUnBelow v ws

/-- The digits of `x` above those of `y`; an error is the answer. The second limit is that of the first. -/
def cmpUnLongerMore : Int → List Int → Except Int Int
  | v, [] => .ok v
  | v, w :: ws =>
    let v := word (v * base)
    if w ≥ word (word (-v) + maxDenorm) then .error 1
    else if w ≤ word (word (-v) + maxDenorm) then .error (-1)
    else cmpUnLongerMore (word (v + w)) ws

def cmpUnLonger : List Int → Except Int Int
  | [] => .ok 0
  | v :: ws => if v ≥ maxDenorm then .error 1 else if v ≤ -maxDenorm then .error (-1) else cmpUnLongerMore v ws

/-- The digits of `y` above those of `x`. -/
def cmpUnShorterMore : Int → List Int → Except Int Int
  | v, [] => .ok v
  | v, w :: ws =>
    let v := word (v * base)
    if w ≤ word (v - maxDenorm) then .error 1
    else if w ≥ word (v + maxDenorm) then .error (-1)
    else cmpUnShorterMore (word (v - w)) ws

def cmpUnShorter : List Int → Except Int Int
  | [] => .ok 0
  | w :: ws =>
    let v := word (-w)
    if v ≥ maxDenorm then .error 1 else if v ≤ -maxDenorm then .error (-1) else cmpUnShorterMore v ws

/-- The digits of both. -/
def cmpUnBoth : Int → List Int → List Int → Int
  | v, x :: xs, y :: ys =>
    let v := word (v * base)
    let w := word (x - y)
    if w ≥ word (word (-v) + maxDenorm) then 1
    else if w ≤ word (word (-v) - maxDenorm) then -1
    else cmpUnBoth (word (v + w)) xs ys
  | v, _, _ => v.sign

/-- `cmp_un_any`. -/
def cmpUn (xs ys : List Int) : Int :=
  let above :=
    if ys.length < xs.length then cmpUnLonger (xs.reverse.take (xs.length - ys.length))
    else if xs.length < ys.length then cmpUnShorter (ys.reverse.take (ys.length - xs.length))
    else .ok 0
  match above with
  | .error res => res
  | .ok v => cmpUnBoth v (xs.reverse.drop (xs.length - ys.length)) (ys.reverse.drop (ys.length - xs.length))

/-! ## Normal numbers -/

theorem eq_of_value_eq {xs ys : List Int} (hlength : xs.length = ys.length) (hx : ∀ x ∈ xs, InRange half x)
    (hy : ∀ y ∈ ys, InRange half y) (h : value base xs = value base ys) : xs = ys := by
  induction xs generalizing ys with
  | nil =>
    rw [List.length_nil] at hlength
    exact (List.length_eq_zero_iff.1 hlength.symm).symm
  | cons x xs ih =>
    cases ys with
    | nil => cases hlength
    | cons y ys =>
      obtain ⟨hx0, hx1⟩ := hx x List.mem_cons_self
      obtain ⟨hy0, hy1⟩ := hy y List.mem_cons_self
      rw [value_cons, value_cons] at h
      have hsame : x = y := by
        unfold half base at *
        omega
      rw [hsame, ih (Nat.succ.inj hlength) (fun d hd => hx d (List.mem_cons_of_mem x hd))
        (fun d hd => hy d (List.mem_cons_of_mem y hd)) (by unfold base at *; omega)]

/-- Normal numbers are equal where their digits are. -/
theorem eqDigits_iff {xs ys : List Int} (hx : Normal half xs) (hy : Normal half ys) :
    eqDigits xs ys = true ↔ value base xs = value base ys := by
  rw [eqDigits, decide_eq_true_iff]
  constructor
  · rintro rfl
    rfl
  · intro hvalue
    have hzero : cmp xs ys = 0 := by
      rw [cmp_eq hx hy, hvalue, sub_self]
      rfl
    have hlength : xs.length = ys.length := by
      by_contra hne
      unfold cmp at hzero
      split_ifs at hzero <;> omega
    exact eq_of_value_eq hlength hx.inRange hy.inRange hvalue

/-- Where the comparison with a word is right: at numbers of one digit, and where the word is on the side of zero of the
number. -/
def WordInReach (xs : List Int) (w : Int) : Prop :=
  xs.length = 1 ∨ value base xs < 0 ∧ value base xs < w ∨ 0 < value base xs ∧ w < value base xs

theorem cmpWord_eq_iff {xs : List Int} (hx : Normal half xs) (w : Int) :
    cmpWord xs w = (value base xs - w).sign ↔ WordInReach xs w := by
  have hsign := (balanced_of_normal hx).sign_topWord
  by_cases hone : xs.length = 1
  · obtain ⟨d, rfl⟩ := List.length_eq_one_iff.1 hone
    refine iff_of_true ?_ (.inl rfl)
    rw [cmpWord, value_cons, value_nil, mul_zero, add_zero]
    rcases lt_trichotomy d w with hlt | rfl | hgt
    · rw [if_pos hlt, Int.sign_eq_neg_one_of_neg (by omega)]
    · simp
    · rw [if_neg hgt.asymm, if_pos hgt, Int.sign_eq_one_of_pos (by omega)]
  · have hne := (balanced_of_normal hx).value_ne_zero hone
    have hcmp : cmpWord xs w = if topWord xs < 0 then -1 else 1 := by
      rcases xs with _ | ⟨d, _ | ⟨e, xs⟩⟩
      · exact absurd rfl hx.ne_nil
      · exact absurd rfl hone
      · rfl
    rw [hcmp, WordInReach, or_iff_right hone]
    rcases lt_or_gt_of_ne hne with hneg | hpos
    · rw [Int.sign_eq_neg_one_of_neg hneg, Int.sign_eq_neg_one_iff_neg] at hsign
      rw [if_pos hsign, eq_comm, Int.sign_eq_neg_one_iff_neg]
      omega
    · rw [Int.sign_eq_one_of_pos hpos, Int.sign_eq_one_iff_pos] at hsign
      rw [if_neg hsign.asymm, eq_comm, Int.sign_eq_one_iff_pos]
      omega

/-! ## Numbers that are not normal -/

/-- The digits of a number that was added to, subtracted from or negated stay below this. -/
def WithinMargin (ds : List Int) : Prop := ds ≠ [] ∧ ∀ d ∈ ds, |d| < 4611686018427387904

/-- Shifting a small leading part stays within a word, and so do the limits around it. -/
theorem word_shift {v : Int} (hv : |v| < maxDenorm) :
    word (v * base) = v * base ∧ word (word (-(v * base)) + maxDenorm) = -(v * base) + maxDenorm ∧
      word (word (-(v * base)) - maxDenorm) = -(v * base) - maxDenorm ∧ word (v * base - maxDenorm) = v * base - maxDenorm ∧
      word (v * base + maxDenorm) = v * base + maxDenorm := by
  obtain ⟨h0, h1⟩ := abs_lt.1 hv
  unfold maxDenorm at *
  unfold base word
  omega

theorem sgnUnBelow_eq {v : Int} (hv : |v| < maxDenorm) (ws : List Int) : sgnUnBelow v ws = signBy base maxDenorm v ws := by
  induction ws generalizing v with
  | nil => rfl
  | cons w ws ih =>
    obtain ⟨hshift, hhigh, hlow, -, -⟩ := word_shift hv
    simp only [sgnUnBelow, signBy, hshift, hhigh, hlow]
    by_cases h0 : maxDenorm ≤ v * base + w
    · rw [if_pos (by omega), if_pos h0]
    · by_cases h1 : v * base + w ≤ -maxDenorm
      · rw [if_neg (by omega), if_pos (by omega), if_neg h0, if_pos h1]
      · have hnext : |v * base + w| < maxDenorm := by
          rw [abs_lt]
          omega
        have hword : word (v * base + w) = v * base + w := by
          obtain ⟨hn0, hn1⟩ := abs_lt.1 hnext
          unfold maxDenorm at hn0 hn1
          exact word_of_fits (by omega) (by omega)
        rw [if_neg (by omega), if_neg (by omega), if_neg h0, if_neg h1, hword]
        exact ih hnext

/-- `sgn_un` tells the sign of numbers that are not normal. -/
theorem sgnUn_eq {ds : List Int} (h : WithinMargin ds) : sgnUn ds = (value base ds).sign := by
  have hall : ∀ d ∈ ds.reverse, |d| ≤ 4611686018427387903 := fun d hd => Int.le_sub_one_of_lt (h.2 d (List.mem_reverse.1 hd))
  have hsign := @signBy_eq base maxDenorm 4611686018427387903 (by decide) (by decide) (by decide) 0 _ hall
  rw [value_eq_valueFrom, ← hsign]
  unfold sgnUn
  cases hreverse : ds.reverse with
  | nil => rfl
  | cons v ws =>
    rw [signBy, zero_mul, zero_add]
    cases ws with
    | nil =>
      show v.sign = if maxDenorm ≤ v then 1 else if v ≤ -maxDenorm then -1 else v.sign
      rcases lt_trichotomy v 0 with hneg | rfl | hpos
      · unfold maxDenorm
        rw [if_neg (by omega), Int.sign_eq_neg_one_of_neg hneg]
        split_ifs <;> rfl
      · rfl
      · unfold maxDenorm
        rw [Int.sign_eq_one_of_pos hpos]
        split_ifs with hhigh hlow
        · rfl
        · omega
        · rfl
    | cons w ws =>
      dsimp only
      by_cases hhigh : maxDenorm ≤ v
      · rw [if_pos hhigh, if_pos hhigh]
      · by_cases hlow : v ≤ -maxDenorm
        · rw [if_neg hhigh, if_pos hlow, if_neg hhigh, if_pos hlow]
        · rw [if_neg hhigh, if_neg hlow, if_neg hhigh, if_neg hlow]
          refine sgnUnBelow_eq ?_ _
          rw [abs_lt]
          omega

/-- The digits of a difference from the top. -/
def diffDigits (xs ys : List Int) : List Int :=
  xs.reverse.take (xs.length - ys.length) ++ ((ys.reverse.take (ys.length - xs.length)).map Neg.neg ++
    List.zipWith (· - ·) (xs.reverse.drop (xs.length - ys.length)) (ys.reverse.drop (ys.length - xs.length)))

theorem valueFrom_diffDigits (xs ys : List Int) :
    valueFrom base 0 (diffDigits xs ys) = value base xs - value base ys := by
  have hlength : (xs.reverse.drop (xs.length - ys.length)).length = (ys.reverse.drop (ys.length - xs.length)).length := by
    rw [List.length_drop, List.length_drop, List.length_reverse, List.length_reverse]
    omega
  have hx := @valueFrom_append base 0 (xs.reverse.take (xs.length - ys.length)) (xs.reverse.drop (xs.length - ys.length))
  have hy := @valueFrom_append base 0 (ys.reverse.take (ys.length - xs.length)) (ys.reverse.drop (ys.length - xs.length))
  rw [List.take_append_drop] at hx hy
  rw [diffDigits, valueFrom_append, valueFrom_append, value_eq_valueFrom xs, value_eq_valueFrom ys, hx, hy]
  -- one of the numbers has no digits above the other
  rcases le_total xs.length ys.length with hle | hle
  · have hnone : xs.reverse.take (xs.length - ys.length) = [] := by rw [Nat.sub_eq_zero_of_le hle, List.take_zero]
    rw [hnone, valueFrom_nil, valueFrom_neg, neg_zero, ← zero_sub]
    exact valueFrom_zipWith_sub hlength _ _
  · have hnone : ys.reverse.take (ys.length - xs.length) = [] := by rw [Nat.sub_eq_zero_of_le hle, List.take_zero]
    rw [hnone, List.map_nil, valueFrom_nil, valueFrom_nil]
    have hzip := @valueFrom_zipWith_sub base _ _ hlength (valueFrom base 0 (xs.reverse.take (xs.length - ys.length))) 0
    rwa [sub_zero] at hzip

section

variable {xs ys : List Int} (hx : WithinMargin xs) (hy : WithinMargin ys)

include hx hy

theorem diffDigits_bounds : ∀ d ∈ diffDigits xs ys, |d| ≤ 9223372036854775806 := by
  intro d hd
  rw [diffDigits, List.mem_append, List.mem_append] at hd
  rcases hd with hd | hd | hd
  · have := hx.2 d (List.mem_reverse.1 (List.mem_of_mem_take hd))
    omega
  · obtain ⟨e, he, rfl⟩ := List.mem_map.1 hd
    have := hy.2 e (List.mem_reverse.1 (List.mem_of_mem_take he))
    rw [abs_neg]
    omega
  · rw [List.mem_iff_getElem] at hd
    obtain ⟨i, hi, rfl⟩ := hd
    rw [List.getElem_zipWith]
    rw [List.length_zipWith] at hi
    have h0 := hx.2 _ (List.mem_reverse.1 (List.mem_of_mem_drop (List.getElem_mem (show i < _ from (lt_min_iff.1 hi).1))))
    have h1 := hy.2 _ (List.mem_reverse.1 (List.mem_of_mem_drop (List.getElem_mem (show i < _ from (lt_min_iff.1 hi).2))))
    rw [abs_lt] at h0 h1
    rw [abs_le]
    omega

end

/-- The digits of both are read as those of the difference. -/
theorem cmpUnBoth_eq {v : Int} (hv : |v| < maxDenorm) {xs ys : List Int} (hlength : xs.length = ys.length)
    (hx : ∀ d ∈ xs, |d| < 4611686018427387904) (hy : ∀ d ∈ ys, |d| < 4611686018427387904) :
    cmpUnBoth v xs ys = signBy base maxDenorm v (List.zipWith (· - ·) xs ys) := by
  induction xs generalizing v ys with
  | nil =>
    rw [List.length_nil] at hlength
    rw [List.length_eq_zero_iff.1 hlength.symm]
    rfl
  | cons x xs ih =>
    cases ys with
    | nil => cases hlength
    | cons y ys =>
      obtain ⟨hshift, hhigh, hlow, -, -⟩ := word_shift hv
      have hxd := abs_lt.1 (hx x List.mem_cons_self)
      have hyd := abs_lt.1 (hy y List.mem_cons_self)
      have hdiff : word (x - y) = x - y := word_of_fits (by omega) (by omega)
      simp only [cmpUnBoth, List.zipWith_cons_cons, signBy, hshift, hhigh, hlow, hdiff]
      by_cases h0 : maxDenorm ≤ v * base + (x - y)
      · rw [if_pos (by omega), if_pos h0]
      · by_cases h1 : v * base + (x - y) ≤ -maxDenorm
        · rw [if_neg (by omega), if_pos (by omega), if_neg h0, if_pos h1]
        · have hnext : |v * base + (x - y)| < maxDenorm := by
            rw [abs_lt]
            omega
          have hword : word (v * base + (x - y)) = v * base + (x - y) := by
            obtain ⟨hn0, hn1⟩ := abs_lt.1 hnext
            unfold maxDenorm at hn0 hn1
            exact word_of_fits (by omega) (by omega)
          rw [if_neg (by omega), if_neg (by omega), if_neg h0, if_neg h1, hword]
          exact ih hnext (Nat.succ.inj hlength) (fun d hd => hx d (List.mem_cons_of_mem x hd))
            fun d hd => hy d (List.mem_cons_of_mem y hd)

/-- The digits of `y` above those of `x` either decide or leave a small leading part. -/
theorem cmpUnShorterMore_cases {v : Int} (hv : |v| < maxDenorm) (ws : List Int) :
    (∃ res, cmpUnShorterMore v ws = .error res ∧ ∀ rest, signBy base maxDenorm v (ws.map Neg.neg ++ rest) = res) ∨
      ∃ v', cmpUnShorterMore v ws = .ok v' ∧ |v'| < maxDenorm ∧
        ∀ rest, signBy base maxDenorm v (ws.map Neg.neg ++ rest) = signBy base maxDenorm v' rest := by
  induction ws generalizing v with
  | nil => exact .inr ⟨v, rfl, hv, fun _ => rfl⟩
  | cons w ws ih =>
    obtain ⟨hshift, -, -, hlow, hhigh⟩ := word_shift hv
    simp only [cmpUnShorterMore, List.map_cons, List.cons_append, signBy, hshift, hhigh, hlow]
    by_cases h0 : maxDenorm ≤ v * base + -w
    · rw [if_pos (by omega)]
      exact .inl ⟨1, rfl, fun _ => if_pos h0⟩
    · by_cases h1 : v * base + -w ≤ -maxDenorm
      · rw [if_neg (by omega), if_pos (by omega)]
        exact .inl ⟨-1, rfl, fun _ => by rw [if_neg h0, if_pos h1]⟩
      · have hnext : |v * base + -w| < maxDenorm := by
          rw [abs_lt]
          omega
        have hword : word (v * base - w) = v * base + -w := by
          obtain ⟨hn0, hn1⟩ := abs_lt.1 hnext
          unfold maxDenorm at hn0 hn1
          exact word_of_fits (by omega) (by omega)
        rw [if_neg (by omega), if_neg (by omega), hword]
        simp only [if_neg h0, if_neg h1]
        exact ih hnext

/-- Whether the loop with the wrong limit is run. -/
def LoopsAbove (xs ys : List Int) : Prop := ys.length + 2 ≤ xs.length ∧ |topWord xs| < maxDenorm

/-- The leading part of two digits. -/
def topTwo (xs : List Int) : Int := topWord xs * base + topWord xs.dropLast

/-- Where the comparison is right: where the loop with the wrong limit is run, its answer is the smaller one but for a large
leading part, and elsewhere a leading part at the limit is not outweighed by what is below it. -/
structure Decides (xs ys : List Int) : Prop where
  above : LoopsAbove xs ys → maxDenorm ≤ topTwo xs ∧ value base ys < value base xs ∨
    topTwo xs < maxDenorm ∧ value base xs < value base ys
  exact : ¬LoopsAbove xs ys → ∀ p below, firstLarge base maxDenorm 0 (diffDigits xs ys) = some (p, below) → |p| = maxDenorm →
    (valueFrom base p below).sign = p.sign

theorem exists_reverse_cons {ds : List Int} (h : ds ≠ []) :
    ∃ rest, ds.reverse = topWord ds :: rest ∧ ds.dropLast = rest.reverse := by
  obtain ⟨top, htop⟩ : ∃ top, ds.getLast? = some top := ⟨_, List.getLast?_eq_some_getLast h⟩
  obtain ⟨low, rfl⟩ := List.getLast?_eq_some_iff.1 htop
  refine ⟨low.reverse, ?_, ?_⟩
  · rw [topWord_of_getLast? htop, List.reverse_append]
    rfl
  · rw [List.dropLast_concat, List.reverse_reverse]

section

variable {xs ys : List Int} (hx : WithinMargin xs) (hy : WithinMargin ys)

include hx hy

theorem rest_bounds (n m : Nat) : (∀ d ∈ xs.reverse.drop n, |d| < 4611686018427387904) ∧
    ∀ d ∈ ys.reverse.drop m, |d| < 4611686018427387904 :=
  ⟨fun d hd => hx.2 d (List.mem_reverse.1 (List.mem_of_mem_drop hd)),
    fun d hd => hy.2 d (List.mem_reverse.1 (List.mem_of_mem_drop hd))⟩

/-- But for the loop with the wrong limit, the answer is the sign of the first large leading part of the difference. -/
theorem cmpUn_eq_signBy (hnot : ¬LoopsAbove xs ys) : cmpUn xs ys = signBy base maxDenorm 0 (diffDigits xs ys) := by
  have hlength : (xs.reverse.drop (xs.length - ys.length)).length = (ys.reverse.drop (ys.length - xs.length)).length := by
    rw [List.length_drop, List.length_drop, List.length_reverse, List.length_reverse]
    omega
  obtain ⟨hbx, hby⟩ := rest_bounds hx hy (xs.length - ys.length) (ys.length - xs.length)
  have hboth := fun v (hv : |v| < maxDenorm) => cmpUnBoth_eq hv hlength hbx hby
  unfold cmpUn diffDigits
  rcases lt_trichotomy ys.length xs.length with hlonger | hsame | hshorter
  · obtain ⟨rest, hreverse, -⟩ := exists_reverse_cons hx.1
    obtain ⟨k, hk⟩ : ∃ k, xs.length - ys.length = k + 1 := ⟨xs.length - ys.length - 1, by omega⟩
    have hnone : ys.length - xs.length = 0 := by omega
    rw [hk, hnone] at hboth ⊢
    rw [if_pos hlonger, hreverse, List.take_succ_cons, cmpUnLonger, List.take_zero, List.map_nil, List.nil_append,
      List.cons_append, signBy, zero_mul, zero_add]
    by_cases h0 : maxDenorm ≤ topWord xs
    · rw [if_pos h0, if_pos h0]
    · by_cases h1 : topWord xs ≤ -maxDenorm
      · rw [if_neg h0, if_pos h1, if_neg h0, if_pos h1]
      · -- there is no second digit above
        have hsmall : |topWord xs| < maxDenorm := by
          rw [abs_lt]
          omega
        obtain rfl : k = 0 := by
          by_contra hne
          exact hnot ⟨by omega, hsmall⟩
        rw [if_neg h0, if_neg h1, if_neg h0, if_neg h1, List.take_zero, List.nil_append]
        have hrest := hboth _ hsmall
        rw [hreverse] at hrest
        exact hrest
  · have hnone : xs.length - ys.length = 0 := by omega
    have hnone' : ys.length - xs.length = 0 := by omega
    rw [hnone, hnone'] at hboth ⊢
    rw [if_neg (by omega), if_neg (by omega), List.take_zero, List.take_zero, List.map_nil, List.nil_append, List.nil_append]
    exact hboth 0 (by decide)
  · obtain ⟨rest, hreverse, -⟩ := exists_reverse_cons hy.1
    obtain ⟨k, hk⟩ : ∃ k, ys.length - xs.length = k + 1 := ⟨ys.length - xs.length - 1, by omega⟩
    have hnone : xs.length - ys.length = 0 := by omega
    have htop := hy.2 (topWord ys) (List.mem_reverse.1 (by rw [hreverse]; exact List.mem_cons_self))
    rw [abs_lt] at htop
    have hword : word (-topWord ys) = -topWord ys := word_of_fits (by omega) (by omega)
    rw [hk, hnone] at hboth ⊢
    rw [if_neg (by omega), if_pos hshorter, hreverse, List.take_succ_cons, cmpUnShorter, List.take_zero, List.nil_append,
      List.map_cons, List.cons_append, signBy, zero_mul, zero_add, hword]
    dsimp only
    by_cases h0 : maxDenorm ≤ -topWord ys
    · rw [if_pos h0, if_pos h0]
    · by_cases h1 : -topWord ys ≤ -maxDenorm
      · rw [if_neg h0, if_pos h1, if_neg h0, if_pos h1]
      · have hsmall : |(-topWord ys)| < maxDenorm := by
          rw [abs_lt]
          omega
        rw [if_neg h0, if_neg h1, if_neg h0, if_neg h1]
        rcases cmpUnShorterMore_cases hsmall (rest.take k) with ⟨res, hres, hall⟩ | ⟨v', hv', hnext, hall⟩
        · rw [hres, hall]
        · have hrest := hboth v' hnext
          rw [hreverse] at hrest
          rw [hv', hall]
          exact hrest

omit hy in
/-- The loop with the wrong limit answers at its first digit. -/
theorem cmpUn_eq_of_loopsAbove (hloops : LoopsAbove xs ys) :
    cmpUn xs ys = if maxDenorm ≤ topTwo xs then 1 else -1 := by
  obtain ⟨hlength, hsmall⟩ := hloops
  obtain ⟨rest, hreverse, hdrop⟩ := exists_reverse_cons hx.1
  have hrest : rest.reverse ≠ [] := by
    rw [← hdrop, ← List.length_pos_iff, List.length_dropLast]
    omega
  obtain ⟨more, hmore, -⟩ := exists_reverse_cons hrest
  rw [List.reverse_reverse, ← hdrop] at hmore
  obtain ⟨k, hk⟩ : ∃ k, xs.length - ys.length = k + 2 := ⟨xs.length - ys.length - 2, by omega⟩
  obtain ⟨hshift, hhigh, -, -, -⟩ := word_shift hsmall
  obtain ⟨h0, h1⟩ := abs_lt.1 hsmall
  unfold cmpUn
  rw [if_pos (by omega), hk, hreverse, hmore, List.take_succ_cons, List.take_succ_cons, cmpUnLonger, if_neg (by omega),
    if_neg (by omega), cmpUnLongerMore, hshift, hhigh, topTwo]
  by_cases hlarge : maxDenorm ≤ topWord xs * base + topWord xs.dropLast
  · rw [if_pos hlarge, if_pos (by omega)]
  · rw [if_neg hlarge, if_neg (by omega), if_pos (by omega)]

/-- `cmp_un` is right exactly there. -/
theorem cmpUn_eq_iff : cmpUn xs ys = (value base xs - value base ys).sign ↔ Decides xs ys := by
  by_cases hloops : LoopsAbove xs ys
  · have habove : Decides xs ys ↔ maxDenorm ≤ topTwo xs ∧ value base ys < value base xs ∨
        topTwo xs < maxDenorm ∧ value base xs < value base ys :=
      ⟨fun h => h.above hloops, fun h => ⟨fun _ => h, fun hnot => absurd hloops hnot⟩⟩
    rw [cmpUn_eq_of_loopsAbove hx hloops, habove]
    split_ifs with hlarge
    · rw [eq_comm, Int.sign_eq_one_iff_pos]
      omega
    · rw [eq_comm, Int.sign_eq_neg_one_iff_neg]
      omega
  · have hexact := @signBy_eq_iff_of_le base maxDenorm 9223372036854775806 (by decide) (by decide) (by decide) 0 _
      (diffDigits_bounds hx hy)
    rw [cmpUn_eq_signBy hx hy hloops, ← valueFrom_diffDigits, hexact]
    exact ⟨fun h => ⟨fun habove => absurd habove hloops, fun _ => h⟩, fun h => h.exact hloops⟩

end

/-! ## The value as a word -/

theorem value_of_digitsAre {w : Int} {ds : List Int} (hw : -4611686018427387904 ≤ w ∧ w ≤ 4611686018427387904)
    (h : ∀ d ∈ ds, InRange half d) (hdigits : digitsAre w ds = true) : value base ds = w := by
  induction ds generalizing w with
  | nil => cases hdigits
  | cons d ds ih =>
    obtain ⟨hd0, hd1⟩ := h d List.mem_cons_self
    unfold half at hd0 hd1
    cases ds with
    | nil =>
      rw [digitsAre, beq_iff_eq] at hdigits
      rw [value_cons, value_nil, mul_zero, add_zero, hdigits]
    | cons e es =>
      have hword : word (w - d) = w - d := word_of_fits (by omega) (by omega)
      rw [digitsAre, Bool.and_eq_true, beq_iff_eq, hword] at hdigits
      · obtain ⟨hzero, hrest⟩ := hdigits
        rw [value_cons, ih (by unfold base; omega) (fun x hx => h x (List.mem_cons_of_mem d hx)) hrest]
        unfold base at *
        omega
      · exact List.cons_ne_nil e es

/-- What no word can hold gives the error marker. -/
theorem toLong_of_not_fits {xs : List Int} (hx : Normal half xs)
    (h : ¬(-9223372036854775808 ≤ value base xs ∧ value base xs < 9223372036854775808)) : toLong xs = noLong := by
  rcases xs with _ | ⟨d, _ | ⟨e, ds⟩⟩
  · rfl
  · obtain ⟨h0, h1⟩ := hx.inRange d (List.mem_singleton_self d)
    rw [value_cons, value_nil, mul_zero, add_zero] at h
    unfold half at h0 h1
    omega
  · rw [toLong]
    obtain ⟨v, hv⟩ : ∃ v, v = word (d + word (e * base)) := ⟨_, rfl⟩
    have hbounds := word_bounds (d + word (e * base))
    rw [← hv] at hbounds ⊢
    rw [if_neg]
    intro hdigits
    have hd := hx.inRange d List.mem_cons_self
    unfold InRange half at hd
    have hrest := value_of_digitsAre (by unfold base; omega) (fun y hy => hx.inRange y (List.mem_cons_of_mem d hy)) hdigits
    -- the word has the lowest digit of the number
    have hlow : (v - d) % base = 0 := by
      rw [hv]
      unfold word base
      omega
    apply h
    rw [value_cons, hrest]
    unfold base at *
    omega

/-! ## All comparisons -/

/-- What the comparisons and the bits of numbers say of the integers they denote. -/
structure Agree (x y : List Int) (w : Int) (a b : List Int) : Prop where
  cmp : cmp x y = (value base x - value base y).sign
  eq : eqDigits x y = true ↔ value base x = value base y
  sgn : sgn x = (value base x).sign
  word : cmpWord x w = (value base x - w).sign
  signed : ∀ n : Nat, signedFitsBits x n = true ↔ FitsSigned (value base x) n
  unsigned : ∀ n : Nat, unsignedFitsBits x n = true ↔ 0 ≤ value base x ∧ value base x < 2 ^ n
  size : ∀ n : Nat, FitsSigned (value base x) n ↔ bitSize x true ≤ n
  unsignedSize : (0 ≤ value base x → ∀ n : Nat, value base x < 2 ^ n ↔ bitSize x false ≤ n) ∧
    (value base x < 0 → bitSize x false = 2147483647)
  bit : ∀ i : Nat, getBit x i = (value base x).testBit i
  long : toLong x =
    if -9223372036854775808 ≤ value base x ∧ value base x < 9223372036854775808 then value base x else noLong
  unnormalizedSgn : sgnUn a = (value base a).sign
  unnormalizedCmp : cmpUn a b = (value base a - value base b).sign

/-- All of them are right exactly where the two comparisons with narrow limits are. -/
theorem agree_iff {x y : List Int} {w : Int} {a b : List Int} (hx : Normal half x) (hy : Normal half y)
    (ha : WithinMargin a) (hb : WithinMargin b) : Agree x y w a b ↔ WordInReach x w ∧ Decides a b := by
  have hbalanced := balanced_of_normal hx
  constructor
  · intro h
    exact ⟨(cmpWord_eq_iff hx w).1 h.word, (cmpUn_eq_iff ha hb).1 h.unnormalizedCmp⟩
  · rintro ⟨hword, hdecides⟩
    exact {
      cmp := cmp_eq hx hy
      eq := eqDigits_iff hx hy
      sgn := sgn_eq hx
      word := (cmpWord_eq_iff hx w).2 hword
      signed := signedFitsBits_iff hbalanced
      unsigned := unsignedFitsBits_iff hbalanced
      size := bitSize_signed hbalanced
      unsignedSize := ⟨bitSize_unsigned hbalanced, fun hneg => (bitSize_neg hbalanced hneg).2⟩
      bit := getBit_eq hbalanced
      long := by
        split_ifs with hfits
        · exact toLong_eq hx hfits
        · exact toLong_of_not_fits hx hfits
      unnormalizedSgn := sgnUn_eq ha
      unnormalizedCmp := (cmpUn_eq_iff ha hb).2 hdecides }

namespace CompareSample

theorem normal_one : Normal half [0, 1] := ⟨by decide, by decide, by decide⟩

theorem withinMargin_one : WithinMargin [0, 1] := ⟨by decide, by decide⟩

/-- The base is above every word of one digit, and above a number of one digit. -/
theorem agree_base : Agree [0, 1] [7] 7 [0, 1] [7] := by
  refine (agree_iff normal_one ⟨by decide, by decide, by decide⟩ withinMargin_one ⟨by decide, by decide⟩).2
    ⟨.inr (.inr (by decide)), ?_, ?_⟩
  · rintro ⟨hlength, -⟩
    exact absurd hlength (by decide)
  · intro _ p below hfirst hlimit
    have hpart : firstLarge base maxDenorm 0 (diffDigits [0, 1] [7]) = some (4503599627370489, []) := by decide
    rw [hpart] at hfirst
    cases hfirst
    exact absurd hlimit (by decide)

/-- The base is not above two to the sixtieth, and five is not below zero. -/
theorem not_agree :
    ¬∀ (x y : List Int) (w : Int) (a b : List Int), Normal half x → Normal half y →
      -9223372036854775808 ≤ w ∧ w < 9223372036854775808 → WithinMargin a → WithinMargin b → Agree x y w a b := by
  intro h
  have hagree := h [0, 1] [7] 1152921504606846976 [5, 0, 0] [0] normal_one ⟨by decide, by decide, by decide⟩ (by decide)
    ⟨by decide, by decide⟩ ⟨by decide, by decide⟩
  exact absurd hagree.word (by decide)

end CompareSample

end TonWallet.Td.BigInt
