/-
Base64 for whole strings (`common/util.cpp`): what is written for some bytes, which texts are taken for valid, and what
is read. Writer, reader and check agree where there are two bytes or more and no equals sign inside of a text.
-/
import TonWallet.Td.Base64
import Mathlib.Data.List.TakeWhile
import Mathlib.Tactic.Tauto

namespace TonWallet.Td

open Lib

/-! ## Writing -/

/-- `compute_base64_encoded_size`. -/
def computeBase64EncodedSize (bindataSize : Nat) : Nat := (bindataSize + 2) / 3 * 4

/-- The symbols of three bytes. -/
def base64Group (table : Base64.Alphabet) (a b c : UInt8) : List Char :=
  let x := a.toNat * 65536 + b.toNat * 256 + c.toNat
  [table.symbol (x / 262144 % 64), table.symbol (x / 4096 % 64), table.symbol (x / 64 % 64), table.symbol (x % 64)]

/-- The loop of `buff_base64_encode` from the byte number `i` on, as long as it is below `bound`, and what is left after
it; `none`: a byte behind the last one is read. -/
def base64EncodeFrom (table : Base64.Alphabet) (bound i : Nat) : List UInt8 → Option (List Char)
  | a :: b :: c :: rest =>
    if i < bound then (base64EncodeFrom table bound (i + 3) rest).map (base64Group table a b c ++ ·) else some []
  | [a, b] => if i < bound then none else some ((base64Group table a b 0).take 3 ++ ['='])
  | [a] => if i < bound then none else some ((base64Group table a 0 0).take 2 ++ ['=', '='])
  | [] => if i < bound then none else some []

/-- `str_base64_encode`; `none`: it reads what it must not, or its check fails. The bound of its loop is a size without a
sign. -/
def strBase64Encode (raw : List UInt8) (base64Url : Bool) : Option (List Char) :=
  if computeBase64EncodedSize raw.length = 0 then some []
  else do
    let bound := (raw.length + 18446744073709551616 - 2) % 18446744073709551616
    let res ← base64EncodeFrom (if base64Url then Base64.url else Base64.standard) bound 0 raw
    if res.length = computeBase64EncodedSize raw.length then some res else none

/-! ## Checking -/

/-- A symbol of one of the alphabets that are allowed. -/
def isBase64Symbol (mode : Nat) (c : Char) : Bool := base64DecTable.getD c.toNat 0 &&& mode ≠ 0

def base64Mode (allowBase64Url : Bool) : Nat := if allowBase64Url then 0xc0 else 0x40

def isValidBase64 (encoded : List Char) (allowBase64Url : Bool) : Bool :=
  let rest := encoded.dropWhile (isBase64Symbol (base64Mode allowBase64Url))
  encoded.length % 4 = 0 && rest.length ≤ 2 && rest.dropWhile (· == '=') = []

/-! ## Reading -/

/-- The bits of a group of four characters; in the last one any `q` characters at its end will do. -/
def base64GroupValue (mode q : Nat) (last : Bool) (s t u v : Char) : Option Nat := do
  let s ← base64Digit mode (last && 4 ≤ 0 + q) s
  let t ← base64Digit mode (last && 4 ≤ 1 + q) t
  let u ← base64Digit mode (last && 4 ≤ 2 + q) u
  let v ← base64Digit mode (last && 4 ≤ 3 + q) v
  return ((s * 64 + t) * 64 + u) * 64 + v

def base64GroupBytes (x : Nat) : List UInt8 := [UInt8.ofNat (x / 65536), UInt8.ofNat (x / 256), UInt8.ofNat x]

/-- What `buff_base64_decode` writes group after group, and whether it gets to the end. -/
def base64Written (mode q : Nat) : List Char → List UInt8 × Bool
  | s :: t :: u :: v :: cs =>
    match base64GroupValue mode q cs.isEmpty s t u v with
    | none => ([], false)
    | some x =>
      if cs.isEmpty then ((base64GroupBytes x).take (3 - q), true)
      else
        let rest := base64Written mode q cs
        (base64GroupBytes x ++ rest.1, rest.2)
  | _ => ([], false)

/-- `buff_base64_decode` into a buffer of some size: what it writes from the start of the buffer on, and the size that it
returns; `none`: its check fails. -/
def buffBase64DecodeTo (size : Nat) (encoded : List Char) (allowBase64Url : Bool) : Option (List UInt8 × Nat) :=
  if encoded.length % 4 ≠ 0 ∨ encoded = [] then some ([], 0)
  else if size + base64Padding encoded < encoded.length / 4 * 3 then some ([], 0)
  else
    let written := base64Written (base64Mode allowBase64Url) (base64Padding encoded) encoded
    if written.2 then if written.1.length ≤ size then some (written.1, written.1.length) else none
    else some (written.1, 0)

def decodedBase64Size (encoded : List Char) : Int :=
  if encoded.length % 4 ≠ 0 then -1
  else if encoded.length > 2147483647 then -1
  else if encoded = [] then 0
  else ((encoded.length / 4 * 3 - base64Padding encoded : Nat) : Int)

/-- `str_base64_decode`, which `base64_decode` does as well; an empty string where it fails. -/
def strBase64Decode (encoded : List Char) (allowBase64Url : Bool) : Option (List UInt8) :=
  let s := decodedBase64Size encoded
  if s ≤ 0 then some []
  else
    match buffBase64DecodeTo s.toNat encoded allowBase64Url with
    | none => none
    | some res => if res.2 = 0 then some [] else if (res.2 : Int) = s then some res.1 else none

/-! ## Symbols and padding -/

theorem isBase64Symbol_iff (mode : Nat) (c : Char) :
    isBase64Symbol mode c = true ↔ base64DecTable.getD c.toNat 0 &&& mode ≠ 0 := decide_eq_true_iff

/-- Only the equals sign has the entry that the reader takes as well. -/
theorem base64DecTable_eq_one_iff (c : Char) : base64DecTable.getD c.toNat 0 = 1 ↔ c = '=' := by
  have hall : ∀ n : Fin 128, base64DecTable.getD n.val 0 = 1 ↔ n.val = 61 := by decide +kernel
  by_cases hc : c.toNat < 128
  · rw [hall ⟨c.toNat, hc⟩]
    constructor
    · intro h
      exact Char.toNat_inj.1 h
    · rintro rfl
      rfl
  · rw [List.getD_eq_default _ _ (Nat.le_of_not_lt hc)]
    refine iff_of_false (by decide) ?_
    rintro rfl
    exact hc (by decide)

/-- What the reader takes for a digit. -/
def IsBase64Readable (mode : Nat) (c : Char) : Prop := isBase64Symbol mode c = true ∨ c = '='

theorem isSome_base64Digit (mode : Nat) (c : Char) :
    (base64Digit mode false c).isSome = true ↔ IsBase64Readable mode c := by
  unfold base64Digit IsBase64Readable
  dsimp only
  rw [isBase64Symbol_iff, ← base64DecTable_eq_one_iff]
  by_cases h : base64DecTable.getD c.toNat 0 &&& mode = 0 ∧ base64DecTable.getD c.toNat 0 ≠ 1
  · rw [if_pos ⟨h.1, h.2, by decide⟩]
    exact iff_of_false (by decide) (by tauto)
  · rw [if_neg (by tauto)]
    exact iff_of_true rfl (by tauto)

theorem isSome_base64Digit_padding (mode : Nat) (c : Char) : (base64Digit mode true c).isSome = true := by
  unfold base64Digit
  dsimp only
  rw [if_neg (by simp)]
  rfl

theorem equals_not_symbol (mode : Nat) (hmode : mode % 2 = 0) : isBase64Symbol mode '=' = false := by
  have h1 : base64DecTable.getD '='.toNat 0 = 1 := (base64DecTable_eq_one_iff '=').2 rfl
  rw [isBase64Symbol, h1, Nat.one_and_eq_mod_two, hmode]
  rfl

/-- The characters before the padding that counts. -/
def base64Body (encoded : List Char) : List Char := encoded.take (encoded.length - base64Padding encoded)

theorem base64Padding_append {body : List Char} {k : Nat} (hk : k ≤ 2) (hbody : body.getLast? ≠ some '=') :
    base64Padding (body ++ List.replicate k '=') = k := by
  have hhead : ∀ c cs, body.reverse = c :: cs → c ≠ '=' := by
    rintro c cs hrev rfl
    rw [← List.head?_reverse, hrev] at hbody
    exact hbody rfl
  have hrev : (body ++ List.replicate k '=').reverse = List.replicate k '=' ++ body.reverse := by
    rw [List.reverse_append, List.reverse_replicate]
  unfold base64Padding
  rw [hrev]
  match k, hk with
  | 0, _ =>
    split
    · next h => exact absurd rfl (hhead _ _ h)
    · next h => exact absurd rfl (hhead _ _ h)
    · rfl
  | 1, _ =>
    split
    · next h => exact absurd rfl (hhead _ _ (List.cons.inj h).2)
    · rfl
    · next h => exact absurd rfl (h body.reverse)
  | 2, _ => rfl

theorem base64Body_eq {body : List Char} {k : Nat} (hk : base64Padding (body ++ List.replicate k '=') = k) :
    base64Body (body ++ List.replicate k '=') = body := by
  rw [base64Body, hk, List.length_append, List.length_replicate, Nat.add_sub_cancel, List.take_left']
  rfl

/-- A text is its body and the padding that counts. -/
theorem base64Body_append (encoded : List Char) :
    base64Body encoded ++ List.replicate (base64Padding encoded) '=' = encoded ∧
      (base64Padding encoded < 2 → (base64Body encoded).getLast? ≠ some '=') := by
  have hsplit : ∀ (body : List Char) (k : Nat), encoded = body ++ List.replicate k '=' → base64Padding encoded = k →
      base64Body encoded = body := by
    rintro body k rfl hk
    exact base64Body_eq hk
  have hreverse : encoded = encoded.reverse.reverse := (List.reverse_reverse encoded).symm
  rcases hrev : encoded.reverse with _ | ⟨c, cs⟩
  · rw [List.reverse_eq_nil_iff.1 hrev]
    exact ⟨rfl, fun _ h => by cases h⟩
  · rw [hrev, List.reverse_cons] at hreverse
    by_cases hc : c = '='
    · subst hc
      have hone : ∀ body : List Char, cs = body.reverse → body.getLast? ≠ some '=' →
          base64Body encoded ++ List.replicate (base64Padding encoded) '=' = encoded ∧
            (base64Padding encoded < 2 → (base64Body encoded).getLast? ≠ some '=') := by
        rintro body rfl hlast
        rw [List.reverse_reverse] at hreverse
        have hpadding : base64Padding encoded = 1 := by
          rw [hreverse]
          exact @base64Padding_append body 1 (by decide) hlast
        rw [hsplit body 1 hreverse hpadding, hpadding]
        exact ⟨hreverse.symm, fun _ => hlast⟩
      rcases cs with _ | ⟨d, ds⟩
      · exact hone [] rfl (by rintro ⟨⟩)
      · by_cases hd : d = '='
        · subst hd
          have hpadding : base64Padding encoded = 2 := by
            unfold base64Padding
            rw [hrev]
            rfl
          have htext : encoded = ds.reverse ++ List.replicate 2 '=' := by
            rw [hreverse, List.reverse_cons, List.append_assoc]
            rfl
          rw [hsplit ds.reverse 2 htext hpadding, hpadding]
          exact ⟨htext.symm, fun h => absurd h (by decide)⟩
        · refine hone (ds.reverse ++ [d]) (by simp) ?_
          rw [List.getLast?_concat]
          rintro h
          exact hd (Option.some.inj h)
    · have hlast : encoded.getLast? ≠ some '=' := by
        rw [hreverse, List.getLast?_concat]
        rintro h
        exact hc (Option.some.inj h)
      have hzero := base64Padding_eq_zero hlast
      have hbody := hsplit encoded 0 (by simp) hzero
      rw [hbody, hzero]
      exact ⟨by simp, fun _ => hlast⟩

/-! ## What the reader takes -/

theorem base64Groups_cons (mode q : Nat) (s t u v : Char) (cs : List Char) :
    base64Groups mode q (s :: t :: u :: v :: cs) =
      (base64GroupValue mode q cs.isEmpty s t u v).bind fun x =>
        if cs.isEmpty then some ((base64GroupBytes x).take (3 - q))
        else (base64Groups mode q cs).map (base64GroupBytes x ++ ·) := by
  rw [base64Groups, base64GroupValue]
  simp only [Option.bind_eq_bind, Option.bind_assoc, Option.pure_def, Option.bind_some, Option.map_eq_bind,
    Function.comp_def]
  rfl

/-- What is read in whole is what is written. -/
theorem base64Groups_eq (mode q : Nat) (t : List Char) :
    base64Groups mode q t = if (base64Written mode q t).2 then some (base64Written mode q t).1 else none := by
  induction t using base64Written.induct mode q with
  | case1 s t u v cs hnone =>
    rw [base64Groups_cons, base64Written, hnone]
    rfl
  | case2 s t u v cs x hsome hlast =>
    rw [base64Groups_cons, base64Written, hsome, Option.bind_some, if_pos hlast]
    simp only [hlast, if_true]
  | case3 s t u v cs x hsome hlast ih =>
    rw [base64Groups_cons, base64Written, hsome, Option.bind_some, if_neg hlast, ih]
    simp only [hlast, if_false, Bool.false_eq_true]
    cases (base64Written mode q cs).2 <;> rfl
  | case4 t hshort =>
    rcases t with _ | ⟨s, _ | ⟨t, _ | ⟨u, _ | ⟨v, cs⟩⟩⟩⟩
    · rfl
    · rfl
    · rfl
    · rfl
    · exact absurd rfl (hshort s t u v cs)

/-- No more is written than whole groups give, but for the padding. -/
theorem length_base64Written_le {mode q : Nat} (hq : q ≤ 3) {t : List Char} (ht : t ≠ []) (h4 : t.length % 4 = 0) :
    (base64Written mode q t).1.length + q ≤ t.length / 4 * 3 := by
  induction t using base64Written.induct mode q with
  | case1 s t u v cs hnone =>
    rw [base64Written, hnone]
    simp only [List.length_nil, List.length_cons]
    omega
  | case2 s t u v cs x hsome hlast =>
    rw [base64Written, hsome]
    simp only [hlast, if_true, base64GroupBytes, List.length_take, List.length_cons, List.length_nil]
    omega
  | case3 s t u v cs x hsome hlast ih =>
    have hcs : cs ≠ [] := by
      rintro rfl
      exact hlast rfl
    simp only [List.length_cons] at h4
    have hrest := ih hcs (by omega)
    rw [base64Written, hsome]
    simp only [hlast, if_false, Bool.false_eq_true, base64GroupBytes, List.length_append, List.length_cons,
      List.length_nil]
    omega
  | case4 t hshort =>
    rcases t with _ | ⟨s, _ | ⟨t, _ | ⟨u, _ | ⟨v, cs⟩⟩⟩⟩
    · exact absurd rfl ht
    · simp at h4
    · simp at h4
    · simp at h4
    · exact absurd rfl (hshort s t u v cs)

theorem isSome_base64GroupValue {mode q : Nat} (hq : q ≤ 2) (s t u v : Char) :
    ((base64GroupValue mode q false s t u v).isSome = true ↔ ∀ c ∈ [s, t, u, v], IsBase64Readable mode c) ∧
      ((base64GroupValue mode q true s t u v).isSome = true ↔
        ∀ c ∈ [s, t, u, v].take (4 - q), IsBase64Readable mode c) := by
  have hdigits : ∀ p₀ p₁ p₂ p₃ : Option Nat,
      (p₀.bind fun s => p₁.bind fun t => p₂.bind fun u => p₃.bind fun v =>
        some (((s * 64 + t) * 64 + u) * 64 + v)).isSome = true ↔
      p₀.isSome = true ∧ p₁.isSome = true ∧ p₂.isSome = true ∧ p₃.isSome = true := by
    rintro (_ | a) (_ | b) (_ | c) (_ | d) <;> simp
  have hvalue : ∀ last, (base64GroupValue mode q last s t u v).isSome = true ↔
      (base64Digit mode (last && 4 ≤ 0 + q) s).isSome = true ∧ (base64Digit mode (last && 4 ≤ 1 + q) t).isSome = true ∧
        (base64Digit mode (last && 4 ≤ 2 + q) u).isSome = true ∧
          (base64Digit mode (last && 4 ≤ 3 + q) v).isSome = true := fun last => hdigits _ _ _ _
  rw [hvalue, hvalue]
  constructor
  · simp [isSome_base64Digit]
  · rcases q with _ | _ | _ | q
    · simp [isSome_base64Digit]
    · simp [isSome_base64Digit, isSome_base64Digit_padding]
    · simp [isSome_base64Digit, isSome_base64Digit_padding]
    · omega

/-- The characters of a text before the padding, its first group apart. -/
theorem forall_take_group {q : Nat} (hq : q ≤ 2) (p : Char → Prop) (s t u v : Char) {cs : List Char}
    (h4 : cs.length % 4 = 0) :
    (∀ c ∈ (s :: t :: u :: v :: cs).take ((s :: t :: u :: v :: cs).length - q), p c) ↔
      if cs.isEmpty then ∀ c ∈ [s, t, u, v].take (4 - q), p c
      else (∀ c ∈ [s, t, u, v], p c) ∧ ∀ c ∈ cs.take (cs.length - q), p c := by
  cases cs with
  | nil => rfl
  | cons d ds =>
    have htake : (s :: t :: u :: v :: d :: ds).take ((s :: t :: u :: v :: d :: ds).length - q) =
        [s, t, u, v] ++ (d :: ds).take ((d :: ds).length - q) := by
      have hlength : (s :: t :: u :: v :: d :: ds).length - q = 4 + ((d :: ds).length - q) := by
        simp only [List.length_cons] at h4 ⊢
        omega
      rw [hlength]
      exact @List.take_length_add_append _ [s, t, u, v] (d :: ds) ((d :: ds).length - q)
    rw [htake, List.forall_mem_append]
    rfl

/-- The reader gets to the end when it takes all characters before the padding. -/
theorem base64Written_iff {mode q : Nat} (hq : q ≤ 2) {t : List Char} (ht : t ≠ []) (h4 : t.length % 4 = 0) :
    (base64Written mode q t).2 = true ↔ ∀ c ∈ t.take (t.length - q), IsBase64Readable mode c := by
  have hgroup := @isSome_base64GroupValue mode q hq
  induction t using base64Written.induct mode q with
  | case1 s t u v cs hnone =>
    rw [forall_take_group hq _ s t u v (by simp only [List.length_cons] at h4; omega), base64Written, hnone]
    refine iff_of_false Bool.false_ne_true ?_
    cases hlast : cs.isEmpty with
    | false =>
      rw [hlast] at hnone
      rw [if_neg (by decide), ← (hgroup s t u v).1, hnone]
      exact fun h => Bool.false_ne_true h.1
    | true =>
      rw [hlast] at hnone
      rw [if_pos rfl, ← (hgroup s t u v).2, hnone]
      exact Bool.false_ne_true
  | case2 s t u v cs x hsome hlast =>
    rw [forall_take_group hq _ s t u v (by simp only [List.length_cons] at h4; omega), base64Written, hsome, if_pos hlast]
    simp only [hlast, if_true]
    rw [hlast] at hsome
    exact iff_of_true trivial ((hgroup s t u v).2.1 (Option.isSome_iff_exists.2 ⟨x, hsome⟩))
  | case3 s t u v cs x hsome hlast ih =>
    have hcs : cs ≠ [] := by
      rintro rfl
      exact hlast rfl
    have h4' : cs.length % 4 = 0 := by
      simp only [List.length_cons] at h4
      omega
    rw [forall_take_group hq _ s t u v h4', base64Written, hsome, if_neg hlast]
    simp only [hlast, if_false, Bool.false_eq_true]
    rw [Bool.eq_false_iff.2 hlast] at hsome
    refine (ih hcs h4').trans ?_
    exact (and_iff_right ((hgroup s t u v).1.1 (Option.isSome_iff_exists.2 ⟨x, hsome⟩))).symm
  | case4 t hshort =>
    rcases t with _ | ⟨s, _ | ⟨t, _ | ⟨u, _ | ⟨v, cs⟩⟩⟩⟩
    · exact absurd rfl ht
    · simp at h4
    · simp at h4
    · simp at h4
    · exact absurd rfl (hshort s t u v cs)

/-- A text is valid when whole groups of it are symbols and padding. -/
theorem isValidBase64_iff (t : List Char) (allowBase64Url : Bool) :
    isValidBase64 t allowBase64Url = true ↔
      t.length % 4 = 0 ∧ ∀ c ∈ base64Body t, isBase64Symbol (base64Mode allowBase64Url) c = true := by
  obtain ⟨htext, hlast⟩ := base64Body_append t
  have hequals : isBase64Symbol (base64Mode allowBase64Url) '=' = false :=
    equals_not_symbol _ (by cases allowBase64Url <;> rfl)
  unfold isValidBase64
  simp only [Bool.and_eq_true, decide_eq_true_eq, and_assoc, and_congr_right_iff]
  rintro -
  constructor
  · rintro ⟨hshort, hrest⟩
    have hall : ∀ c ∈ t.takeWhile (isBase64Symbol (base64Mode allowBase64Url)),
        isBase64Symbol (base64Mode allowBase64Url) c = true := fun c hc => List.mem_takeWhile_imp hc
    have hpadding : t.dropWhile (isBase64Symbol (base64Mode allowBase64Url)) =
        List.replicate (t.dropWhile (isBase64Symbol (base64Mode allowBase64Url))).length '=' :=
      List.eq_replicate_iff.2 ⟨rfl, fun c hc => beq_iff_eq.1 (List.dropWhile_eq_nil_iff.1 hrest c hc)⟩
    have htext' := (@List.takeWhile_append_dropWhile _ (isBase64Symbol (base64Mode allowBase64Url)) t).symm
    rw [hpadding] at htext'
    have hend : (t.takeWhile (isBase64Symbol (base64Mode allowBase64Url))).getLast? ≠ some '=' := by
      rintro h
      rw [hall '=' (List.mem_of_mem_getLast? h)] at hequals
      cases hequals
    have hcount := base64Padding_append hshort hend
    rw [htext', base64Body_eq hcount]
    exact hall
  · rintro hall
    have hdrop : t.dropWhile (isBase64Symbol (base64Mode allowBase64Url)) = List.replicate (base64Padding t) '=' := by
      conv_lhs => rw [← htext]
      rw [List.dropWhile_append_of_pos hall, List.dropWhile_replicate, hequals]
      rfl
    rw [hdrop, List.length_replicate, List.dropWhile_replicate]
    exact ⟨base64Padding_le t, rfl⟩
/-- What is read into a buffer stays inside of it, and the check at the end holds. -/
theorem buffBase64DecodeTo_spec (size : Nat) (t : List Char) (allowBase64Url : Bool) :
    ∃ res, buffBase64DecodeTo size t allowBase64Url = some res ∧ res.1.length ≤ size := by
  unfold buffBase64DecodeTo
  split
  · exact ⟨_, rfl, Nat.zero_le _⟩
  · next hgroups =>
    split
    · exact ⟨_, rfl, Nat.zero_le _⟩
    · next hsize =>
      have hle := @length_base64Written_le (base64Mode allowBase64Url) (base64Padding t)
        ((base64Padding_le t).trans (by decide)) t (fun h => hgroups (Or.inr h)) (by omega)
      dsimp only
      rw [if_pos (by omega : (base64Written (base64Mode allowBase64Url) (base64Padding t) t).1.length ≤ size)]
      split
      · exact ⟨_, rfl, by dsimp only; omega⟩
      · exact ⟨_, rfl, by dsimp only; omega⟩

theorem strBase64Decode_of_size {t : List Char} (h : t.length % 4 ≠ 0 ∨ t.length > 2147483647 ∨ t = [])
    (allowBase64Url : Bool) : strBase64Decode t allowBase64Url = some [] := by
  have hsize : decodedBase64Size t ≤ 0 := by
    unfold decodedBase64Size
    split_ifs with h4 hlong hnil
    · decide
    · decide
    · decide
    · rcases h with h | h | h
      · exact absurd h h4
      · exact absurd h hlong
      · exact absurd h hnil
  unfold strBase64Decode
  dsimp only
  rw [if_pos hsize]

theorem strBase64Decode_of_groups {t : List Char} (h4 : t.length % 4 = 0) (hlong : t.length ≤ 2147483647) (ht : t ≠ [])
    (allowBase64Url : Bool) :
    strBase64Decode t allowBase64Url =
      some ((base64Groups (base64Mode allowBase64Url) (base64Padding t) t).getD []) := by
  have hpos := List.length_pos_of_ne_nil ht
  have hq := base64Padding_le t
  have hsize : decodedBase64Size t = (t.length / 4 * 3 - base64Padding t : Nat) := by
    rw [decodedBase64Size, if_neg (by omega), if_neg (by omega), if_neg ht]
  have hle := @length_base64Written_le (base64Mode allowBase64Url) (base64Padding t) (by omega) t ht h4
  unfold strBase64Decode buffBase64DecodeTo
  dsimp only
  rw [hsize, if_neg (by omega), Int.toNat_natCast, if_neg (by rintro (h | h); exacts [h h4, ht h]), if_neg (by omega),
    if_pos (by omega : (base64Written (base64Mode allowBase64Url) (base64Padding t) t).1.length ≤ _)]
  have hgroups := base64Groups_eq (base64Mode allowBase64Url) (base64Padding t) t
  cases hend : (base64Written (base64Mode allowBase64Url) (base64Padding t) t).2 with
  | false =>
    rw [hend] at hgroups
    rw [hgroups]
    rfl
  | true =>
    rw [hend, if_pos rfl] at hgroups
    have hexact := length_base64Groups (by omega) hgroups
    rw [hgroups, if_pos rfl]
    dsimp only
    rw [if_neg (by omega), if_pos (by omega)]
    rfl

/-! ## What is written is read -/

/-- The signs that fill up the last group of some bytes. -/
def base64Fill (raw : List UInt8) : Nat := (3 - raw.length % 3) % 3

theorem base64EncodeFrom_eq (table : Base64.Alphabet) {bound i : Nat} {raw : List UInt8}
    (h : i + raw.length = bound + 2) :
    base64EncodeFrom table bound i raw = some (table.encode raw ++ List.replicate (base64Fill raw) '=') := by
  induction raw using Base64.digits.induct generalizing i with
  | case1 =>
    rw [base64EncodeFrom, if_neg (by simp at h; omega)]
    rfl
  | case2 a =>
    have ha := a.toNat_lt
    rw [base64EncodeFrom, if_neg (by simp at h; omega)]
    simp only [base64Group, Base64.Alphabet.encode, Base64.digits, List.map_cons, List.map_nil]
    rw [show (a.toNat * 65536 + (0 : UInt8).toNat * 256 + (0 : UInt8).toNat) / 262144 % 64 = a.toNat / 4 by
      rw [UInt8.toNat_zero]; omega,
      show (a.toNat * 65536 + (0 : UInt8).toNat * 256 + (0 : UInt8).toNat) / 4096 % 64 = a.toNat % 4 * 16 by
      rw [UInt8.toNat_zero]; omega]
    rfl
  | case3 a b =>
    have ha := a.toNat_lt
    have hb := b.toNat_lt
    rw [base64EncodeFrom, if_neg (by simp at h; omega)]
    simp only [base64Group, Base64.Alphabet.encode, Base64.digits, List.map_cons, List.map_nil]
    rw [show (a.toNat * 65536 + b.toNat * 256 + (0 : UInt8).toNat) / 262144 % 64 = a.toNat / 4 by
      rw [UInt8.toNat_zero]; omega,
      show (a.toNat * 65536 + b.toNat * 256 + (0 : UInt8).toNat) / 4096 % 64 = a.toNat % 4 * 16 + b.toNat / 16 by
      rw [UInt8.toNat_zero]; omega,
      show (a.toNat * 65536 + b.toNat * 256 + (0 : UInt8).toNat) / 64 % 64 = b.toNat % 16 * 4 by
      rw [UInt8.toNat_zero]; omega]
    rfl
  | case4 a b c raw ih =>
    have ha := a.toNat_lt
    have hb := b.toNat_lt
    have hc := c.toNat_lt
    simp only [List.length_cons] at h
    have hfill : base64Fill (a :: b :: c :: raw) = base64Fill raw := by
      simp only [base64Fill, List.length_cons]
      omega
    rw [base64EncodeFrom, if_pos (by omega), ih (by omega), hfill, Option.map_some]
    simp only [base64Group, Base64.Alphabet.encode, Base64.digits, List.map_cons]
    rw [show (a.toNat * 65536 + b.toNat * 256 + c.toNat) / 262144 % 64 = a.toNat / 4 by omega,
      show (a.toNat * 65536 + b.toNat * 256 + c.toNat) / 4096 % 64 = a.toNat % 4 * 16 + b.toNat / 16 by omega,
      show (a.toNat * 65536 + b.toNat * 256 + c.toNat) / 64 % 64 = b.toNat % 16 * 4 + c.toNat / 64 by omega,
      show (a.toNat * 65536 + b.toNat * 256 + c.toNat) % 64 = c.toNat % 64 by omega]
    rfl

/-- Padded groups are read back, in any mode that takes the symbols. -/
theorem base64Groups_encode_fill {mode : Nat} {table : Base64.Alphabet}
    (hdigit : ∀ {d : Nat}, d < 64 → ∀ padding, base64Digit mode padding (table.symbol d) = some d) {raw : List UInt8}
    (hraw : raw ≠ []) :
    base64Groups mode (base64Fill raw) (table.encode raw ++ List.replicate (base64Fill raw) '=') = some raw := by
  have hequals : base64Digit mode true '=' = some 1 := by
    have h1 : base64DecTable.getD '='.toNat 0 = 1 := (base64DecTable_eq_one_iff '=').2 rfl
    rw [base64Digit, h1]
    simp
  induction raw using Base64.digits.induct with
  | case1 => exact absurd rfl hraw
  | case2 a =>
    have ha := a.toNat_lt
    have hvalue : base64GroupValue mode 2 true (table.symbol (a.toNat / 4)) (table.symbol (a.toNat % 4 * 16)) '=' '=' =
        some (((a.toNat / 4 * 64 + a.toNat % 4 * 16) * 64 + 1) * 64 + 1) := by
      simp [base64GroupValue, hdigit (show a.toNat / 4 < 64 by omega), hdigit (show a.toNat % 4 * 16 < 64 by omega),
        hequals]
    change base64Groups mode 2 (_ :: _ :: '=' :: '=' :: []) = _
    rw [base64Groups_cons, List.isEmpty_nil, hvalue, Option.bind_some, if_pos rfl]
    change some [_] = some [a]
    rw [Base64.ofNat_of_eq_toNat (show _ = a.toNat by omega)]
  | case3 a b =>
    have ha := a.toNat_lt
    have hb := b.toNat_lt
    have hvalue : base64GroupValue mode 1 true (table.symbol (a.toNat / 4))
        (table.symbol (a.toNat % 4 * 16 + b.toNat / 16)) (table.symbol (b.toNat % 16 * 4)) '=' =
        some (((a.toNat / 4 * 64 + (a.toNat % 4 * 16 + b.toNat / 16)) * 64 + b.toNat % 16 * 4) * 64 + 1) := by
      simp [base64GroupValue, hdigit (show a.toNat / 4 < 64 by omega),
        hdigit (show a.toNat % 4 * 16 + b.toNat / 16 < 64 by omega), hdigit (show b.toNat % 16 * 4 < 64 by omega),
        hequals]
    change base64Groups mode 1 (_ :: _ :: _ :: '=' :: []) = _
    rw [base64Groups_cons, List.isEmpty_nil, hvalue, Option.bind_some, if_pos rfl]
    change some [_, _] = some [a, b]
    have hsecond : UInt8.ofNat ((((a.toNat / 4 * 64 + (a.toNat % 4 * 16 + b.toNat / 16)) * 64 + b.toNat % 16 * 4) * 64 +
        1) / 256) = b := by
      apply UInt8.toNat_inj.1
      rw [UInt8.toNat_ofNat']
      omega
    rw [Base64.ofNat_of_eq_toNat (show _ = a.toNat by omega), hsecond]
  | case4 a b c raw ih =>
    have ha := a.toNat_lt
    have hb := b.toNat_lt
    have hc := c.toNat_lt
    have hfill : base64Fill (a :: b :: c :: raw) = base64Fill raw := by
      simp only [base64Fill, List.length_cons]
      omega
    rw [hfill]
    generalize hrest : table.encode raw ++ List.replicate (base64Fill raw) '=' = rest at ih
    have htext : table.encode (a :: b :: c :: raw) ++ List.replicate (base64Fill raw) '=' =
        table.symbol (a.toNat / 4) :: table.symbol (a.toNat % 4 * 16 + b.toNat / 16) ::
          table.symbol (b.toNat % 16 * 4 + c.toNat / 64) :: table.symbol (c.toNat % 64) :: rest := by
      rw [← hrest]
      rfl
    have hvalue : base64GroupValue mode (base64Fill raw) rest.isEmpty (table.symbol (a.toNat / 4))
        (table.symbol (a.toNat % 4 * 16 + b.toNat / 16)) (table.symbol (b.toNat % 16 * 4 + c.toNat / 64))
        (table.symbol (c.toNat % 64)) = some (a.toNat * 65536 + b.toNat * 256 + c.toNat) := by
      simp [base64GroupValue, hdigit (show a.toNat / 4 < 64 by omega),
        hdigit (show a.toNat % 4 * 16 + b.toNat / 16 < 64 by omega),
        hdigit (show b.toNat % 16 * 4 + c.toNat / 64 < 64 by omega), hdigit (show c.toNat % 64 < 64 by omega)]
      omega
    have hsecond : UInt8.ofNat ((a.toNat * 65536 + b.toNat * 256 + c.toNat) / 256) = b := by
      apply UInt8.toNat_inj.1
      rw [UInt8.toNat_ofNat']
      omega
    have hthird : UInt8.ofNat (a.toNat * 65536 + b.toNat * 256 + c.toNat) = c := by
      apply UInt8.toNat_inj.1
      rw [UInt8.toNat_ofNat']
      omega
    rw [htext, base64Groups_cons, hvalue, Option.bind_some, base64GroupBytes,
      Base64.ofNat_of_eq_toNat (show _ = a.toNat by omega), hsecond, hthird]
    cases raw with
    | nil =>
      rw [← hrest]
      rfl
    | cons d raw =>
      have hne : rest ≠ [] := by
        rintro rfl
        rw [List.append_eq_nil_iff] at hrest
        have hlength := table.length_encode (d :: raw)
        rw [hrest.1] at hlength
        simp only [List.length_nil, List.length_cons] at hlength
        omega
      rw [if_neg (by rw [List.isEmpty_iff]; exact hne), ih (List.cons_ne_nil d raw)]
      rfl

/-- Each alphabet is read in the mode that has both, and the standard one in its own mode as well. -/
theorem base64Digit_of_mode {base64Url allowBase64Url : Bool} (hallow : base64Url = true → allowBase64Url = true)
    {d : Nat} (hd : d < 64) (padding : Bool) :
    base64Digit (base64Mode allowBase64Url) padding
      ((if base64Url then Base64.url else Base64.standard).symbol d) = some d := by
  cases allowBase64Url with
  | true => exact base64Digit_symbol hd base64Url padding
  | false =>
    cases base64Url with
    | true => exact absurd (hallow rfl) (by decide)
    | false =>
      obtain ⟨hdigit, -, hmode⟩ := base64Entries_bits false hd
      unfold base64Digit
      dsimp only
      rw [base64DecTable_symbol false hd, if_neg (fun h => hmode h.1), hdigit]

/-- The text of two bytes or more. -/
theorem strBase64Encode_eq {raw : List UInt8} (hlength : 2 ≤ raw.length) (hsize : raw.length < 2 ^ 64) (base64Url : Bool) :
    strBase64Encode raw base64Url = some ((if base64Url then Base64.url else Base64.standard).encode raw ++
      List.replicate (base64Fill raw) '=') := by
  have hcount : ((if base64Url then Base64.url else Base64.standard).encode raw ++
      List.replicate (base64Fill raw) '=').length = computeBase64EncodedSize raw.length := by
    rw [List.length_append, Base64.Alphabet.length_encode, List.length_replicate, base64Fill, computeBase64EncodedSize]
    omega
  have hbound : (raw.length + 18446744073709551616 - 2) % 18446744073709551616 = raw.length - 2 := by omega
  unfold strBase64Encode
  dsimp only
  rw [if_neg (by unfold computeBase64EncodedSize; omega), hbound,
    base64EncodeFrom_eq _ (by omega : 0 + raw.length = raw.length - 2 + 2), Option.bind_eq_bind, Option.bind_some,
    if_pos hcount]

theorem length_strBase64Encode {raw : List UInt8} {base64Url : Bool} {t : List Char}
    (h : strBase64Encode raw base64Url = some t) : t.length = computeBase64EncodedSize raw.length := by
  unfold strBase64Encode at h
  split at h
  · next h0 =>
    cases h
    exact h0.symm
  · obtain ⟨res, -, h⟩ := Option.bind_eq_some_iff.1 h
    split at h
    · next hlength =>
      cases h
      exact hlength
    · cases h

/-- Both ways of writing some bytes are read back as them, the standard one in either mode. -/
def RoundTrips (raw : List UInt8) : Prop :=
  ∀ base64Url allowBase64Url, (base64Url = true → allowBase64Url = true) →
    ∃ t, strBase64Encode raw base64Url = some t ∧ strBase64Decode t allowBase64Url = some raw

/-- Reading succeeds: it gives some bytes, or there is nothing to read. -/
def Decodes (t : List Char) (allowBase64Url : Bool) : Prop :=
  t = [] ∨ ∃ bytes, bytes ≠ [] ∧ strBase64Decode t allowBase64Url = some bytes

/-- Equals signs are at the end of a text only. -/
def PaddedAtEnd (t : List Char) : Prop := ∃ body k, t = body ++ List.replicate k '=' ∧ '=' ∉ body

/-- Reading and checking share one idea of a valid text. -/
structure DecodesValid (t : List Char) (allowBase64Url : Bool) : Prop where
  checks : (∀ size, (buffBase64DecodeTo size t allowBase64Url).isSome = true) ∧
    (strBase64Decode t allowBase64Url).isSome = true
  bounds : ∀ size res, buffBase64DecodeTo size t allowBase64Url = some res → res.1.length ≤ size
  success : Decodes t allowBase64Url ↔ isValidBase64 t allowBase64Url = true
  padding : Decodes t allowBase64Url → PaddedAtEnd t

/-- Whole groups of symbols with an equals sign among them, or a valid text that is too long for a size with a sign. -/
def Misread (t : List Char) (allowBase64Url : Bool) : Prop :=
  t.length % 4 = 0 ∧
    if t.length ≤ 2147483647 then
      '=' ∈ base64Body t ∧ ∀ c ∈ base64Body t, IsBase64Readable (base64Mode allowBase64Url) c
    else ∀ c ∈ base64Body t, isBase64Symbol (base64Mode allowBase64Url) c = true

theorem strBase64Decode_encode {raw : List UInt8} (hlength : 2 ≤ raw.length) (hsize : raw.length ≤ 1610612733)
    {base64Url allowBase64Url : Bool} (hallow : base64Url = true → allowBase64Url = true) :
    strBase64Decode ((if base64Url then Base64.url else Base64.standard).encode raw ++
      List.replicate (base64Fill raw) '=') allowBase64Url = some raw := by
  have hlast : ((if base64Url then Base64.url else Base64.standard).encode raw).getLast? ≠ some '=' :=
    fun h => equals_not_mem_encode base64Url raw (List.mem_of_mem_getLast? h)
  have hpadding := base64Padding_append (k := base64Fill raw) (by unfold base64Fill; omega) hlast
  have hcount : ((if base64Url then Base64.url else Base64.standard).encode raw ++
      List.replicate (base64Fill raw) '=').length = (raw.length + 2) / 3 * 4 := by
    rw [List.length_append, Base64.Alphabet.length_encode, List.length_replicate, base64Fill]
    omega
  have hne : (if base64Url then Base64.url else Base64.standard).encode raw ++ List.replicate (base64Fill raw) '=' ≠ [] :=
    List.ne_nil_of_length_pos (by omega)
  rw [strBase64Decode_of_groups (by omega) (by omega) hne, hpadding,
    base64Groups_encode_fill (fun hd => base64Digit_of_mode hallow hd) (List.ne_nil_of_length_pos (by omega))]
  rfl

theorem roundTrips_iff (raw : List UInt8) : RoundTrips raw ↔ raw.length ≠ 1 ∧ raw.length ≤ 1610612733 := by
  constructor
  · intro h
    obtain ⟨t, hencode, hdecode⟩ := h false false (fun h => h)
    constructor
    · rintro hone
      obtain ⟨a, rfl⟩ := List.length_eq_one_iff.1 hone
      have hnone : strBase64Encode [a] false = none := by
        simp [strBase64Encode, computeBase64EncodedSize, base64EncodeFrom]
      rw [hnone] at hencode
      cases hencode
    · by_contra hlarge
      have hcount := length_strBase64Encode hencode
      unfold computeBase64EncodedSize at hcount
      rw [strBase64Decode_of_size (Or.inr (Or.inl (by omega)))] at hdecode
      cases hdecode
      exact hlarge (Nat.zero_le _)
  · rintro ⟨hone, hlarge⟩ base64Url allowBase64Url hallow
    rcases Nat.eq_zero_or_pos raw.length with h0 | hpos
    · rw [List.length_eq_zero_iff.1 h0]
      exact ⟨[], rfl, strBase64Decode_of_size (Or.inr (Or.inr rfl)) _⟩
    · exact ⟨_, strBase64Encode_eq (by omega) (by omega) base64Url,
        strBase64Decode_encode (by omega) hlarge hallow⟩

/-- A text that is not too long is read when all its characters before the padding are taken. -/
theorem decodes_iff {t : List Char} (hlong : t.length ≤ 2147483647) (allowBase64Url : Bool) :
    Decodes t allowBase64Url ↔
      t.length % 4 = 0 ∧ ∀ c ∈ base64Body t, IsBase64Readable (base64Mode allowBase64Url) c := by
  by_cases ht : t = []
  · subst ht
    exact iff_of_true (Or.inl rfl) ⟨rfl, by rintro c ⟨⟩⟩
  · by_cases h4 : t.length % 4 = 0
    · have hq := base64Padding_le t
      have hgroups := base64Groups_eq (base64Mode allowBase64Url) (base64Padding t) t
      rw [base64Body, ← base64Written_iff hq ht h4]
      constructor
      · rintro (h | ⟨bytes, hne, hdecode⟩)
        · exact absurd h ht
        · refine ⟨h4, ?_⟩
          by_contra hend
          rw [strBase64Decode_of_groups h4 hlong ht, hgroups, if_neg hend] at hdecode
          exact hne (Option.some.inj hdecode).symm
      · rintro ⟨-, hend⟩
        rw [hend, if_pos rfl] at hgroups
        refine Or.inr ⟨_, ?_, by rw [strBase64Decode_of_groups h4 hlong ht, hgroups, Option.getD_some]⟩
        have hlength := length_base64Groups (by omega) hgroups
        have hpos := List.length_pos_of_ne_nil ht
        exact List.ne_nil_of_length_pos (by omega)
    · refine iff_of_false ?_ fun h => h4 h.1
      rintro (h | ⟨bytes, hne, hdecode⟩)
      · exact ht h
      · rw [strBase64Decode_of_size (Or.inl h4)] at hdecode
        exact hne (Option.some.inj hdecode).symm

theorem not_decodes_of_long {t : List Char} (hlong : 2147483647 < t.length) (allowBase64Url : Bool) :
    ¬Decodes t allowBase64Url := by
  rintro (rfl | ⟨bytes, hne, hdecode⟩)
  · simp at hlong
  · rw [strBase64Decode_of_size (Or.inr (Or.inl hlong))] at hdecode
    exact hne (Option.some.inj hdecode).symm

theorem isSome_strBase64Decode (t : List Char) (allowBase64Url : Bool) :
    (strBase64Decode t allowBase64Url).isSome = true := by
  by_cases h : t.length % 4 ≠ 0 ∨ t.length > 2147483647 ∨ t = []
  · rw [strBase64Decode_of_size h]
    rfl
  · rw [not_or, not_or, not_not, not_lt] at h
    rw [strBase64Decode_of_groups h.1 h.2.1 h.2.2]
    rfl

/-- Nothing is ever written out of bounds, and no check fails. -/
theorem DecodesValid.of_success {t : List Char} {allowBase64Url : Bool}
    (hsuccess : Decodes t allowBase64Url ↔ isValidBase64 t allowBase64Url = true)
    (hpadding : Decodes t allowBase64Url → PaddedAtEnd t) : DecodesValid t allowBase64Url := by
  refine ⟨⟨fun size => ?_, isSome_strBase64Decode t allowBase64Url⟩, ?_, hsuccess, hpadding⟩
  · obtain ⟨res, hres, -⟩ := buffBase64DecodeTo_spec size t allowBase64Url
    rw [hres]
    rfl
  · rintro size res hres
    obtain ⟨res', hres', hle⟩ := buffBase64DecodeTo_spec size t allowBase64Url
    rw [hres, Option.some.injEq] at hres'
    rwa [hres']

theorem decodesValid_iff (t : List Char) (allowBase64Url : Bool) :
    DecodesValid t allowBase64Url ↔ ¬Misread t allowBase64Url := by
  have hequals : isBase64Symbol (base64Mode allowBase64Url) '=' = false :=
    equals_not_symbol _ (by cases allowBase64Url <;> rfl)
  have hvalid := isValidBase64_iff t allowBase64Url
  unfold Misread
  by_cases hlong : t.length ≤ 2147483647
  · have hdecodes := decodes_iff hlong allowBase64Url
    rw [if_pos hlong]
    constructor
    · rintro h ⟨h4, hmem, hall⟩
      have hsymbols := hvalid.1 (h.success.1 (hdecodes.2 ⟨h4, hall⟩))
      rw [hsymbols.2 '=' hmem] at hequals
      cases hequals
    · rintro hnot
      -- without an equals sign among them, what is taken is a symbol
      have hsymbols : Decodes t allowBase64Url → '=' ∉ base64Body t := fun h hmem =>
        hnot ⟨(hdecodes.1 h).1, hmem, (hdecodes.1 h).2⟩
      refine DecodesValid.of_success ?_ ?_
      · rw [hvalid]
        constructor
        · rintro h
          refine ⟨(hdecodes.1 h).1, fun c hc => ?_⟩
          rcases (hdecodes.1 h).2 c hc with hc' | rfl
          · exact hc'
          · exact absurd hc (hsymbols h)
        · rintro ⟨h4, hall⟩
          exact hdecodes.2 ⟨h4, fun c hc => Or.inl (hall c hc)⟩
      · rintro h
        exact ⟨base64Body t, base64Padding t, (base64Body_append t).1.symm, hsymbols h⟩
  · have hdecodes := not_decodes_of_long (not_le.1 hlong) allowBase64Url
    rw [if_neg hlong]
    constructor
    · rintro h hsymbols
      exact hdecodes (h.success.2 (hvalid.2 hsymbols))
    · rintro hnot
      refine DecodesValid.of_success ?_ fun h => absurd h hdecodes
      rw [hvalid]
      exact iff_of_false hdecodes hnot

/-- Texts are written, checked and read alike but for single bytes, equals signs inside of a text and sizes that a word
with a sign does not hold. -/
theorem base64_agrees_iff (raw : List UInt8) (t : List Char) (allowBase64Url : Bool) :
    (RoundTrips raw ↔ raw.length ≠ 1 ∧ raw.length ≤ 1610612733) ∧
      (DecodesValid t allowBase64Url ↔ ¬Misread t allowBase64Url) :=
  ⟨roundTrips_iff raw, decodesValid_iff t allowBase64Url⟩

/-- A single byte is not written, and an equals sign between digits is read as one of them. -/
theorem base64_disagrees : ¬RoundTrips [0] ∧ ¬DecodesValid ['A', 'B', '=', 'C'] true := by
  constructor
  · rintro h
    exact ((roundTrips_iff [0]).1 h).1 rfl
  · rintro h
    have hdecodes : Decodes ['A', 'B', '=', 'C'] true := Or.inr ⟨[0, 0x10, 0x42], List.cons_ne_nil _ _, by decide +kernel⟩
    have hvalid := h.success.1 hdecodes
    revert hvalid
    decide

end TonWallet.Td
