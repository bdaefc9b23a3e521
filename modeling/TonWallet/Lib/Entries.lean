/-
Maps from strings as the entries put into them, and the usual way to store nested records in such a map:
the fields of a record under a prefix, the elements of a list under a numbered prefix. A record is read
back through its prefix, and the prefixes keep the parts of a map apart.
-/
import Std.Data.String.ToNat
import Mathlib.Data.List.Induction

namespace Lib

/-- The entries put into a map from strings, the earliest first. -/
abbrev Entries (β : Type*) := List (String × β)

namespace Entries

variable {β : Type*}

/-- The value put last under a key. -/
def get (es : Entries β) (k : String) : Option β := es.foldl (fun r e => if e.1 = k then some e.2 else r) none

theorem get_eq_foldl (es : Entries β) (k : String) (r : Option β) :
    es.foldl (fun r e => if e.1 = k then some e.2 else r) r = (get es k).or r := by
  induction es generalizing r with
  | nil => simp [get]
  | cons e es ih =>
    rw [get, List.foldl_cons, List.foldl_cons, ih, ih]
    split <;> cases get es k <;> simp

@[simp] theorem get_nil (k : String) : get ([] : Entries β) k = none := rfl

@[simp] theorem get_cons (e : String × β) (es : Entries β) (k : String) :
    get (e :: es) k = (get es k).or (if e.1 = k then some e.2 else none) := by
  rw [get, List.foldl_cons, get_eq_foldl]

@[simp] theorem get_append (xs ys : Entries β) (k : String) : get (xs ++ ys) k = (get ys k).or (get xs k) := by
  rw [get, List.foldl_append, get_eq_foldl]
  rfl

theorem get_eq_none {es : Entries β} {k : String} (h : ∀ e ∈ es, e.1 ≠ k) : get es k = none := by
  induction es with
  | nil => rfl
  | cons e es ih =>
    rw [get_cons, ih fun e' he => h e' (by simp [he]), if_neg (h e (by simp))]
    rfl

/-- An optional entry. -/
def opt (k : String) (v : Option β) : Entries β := (v.map fun v => (k, v)).toList

@[simp] theorem get_opt (k k' : String) (v : Option β) : get (opt k v) k' = if k = k' then v else none := by
  cases v <;> simp [opt]

/-! ## Changes -/

/-- The entries without those of a key. -/
def remove (k : String) (es : Entries β) : Entries β := es.filter fun e => decide (e.1 ≠ k)

@[simp] theorem get_remove (k k' : String) (es : Entries β) :
    get (remove k es) k' = if k = k' then none else get es k' := by
  induction es with
  | nil => simp [remove]
  | cons e es ih =>
    rw [get_cons, remove, List.filter_cons]
    change get (if decide (e.1 ≠ k) = true then e :: remove k es else remove k es) k' = _
    by_cases he : e.1 = k
    · rw [if_neg (by simp [he]), ih, he]
      split
      · rfl
      · simp
    · rw [if_pos (by simp [he]), get_cons, ih]
      split
      · subst_vars
        rw [if_neg he]
        rfl
      · rfl

/-- One entry put over the others. -/
def put (k : String) (v : β) (es : Entries β) : Entries β := remove k es ++ [(k, v)]

@[simp] theorem get_put (k k' : String) (v : β) (es : Entries β) :
    get (put k v es) k' = if k = k' then some v else get es k' := by
  rw [put, get_append, get_remove]
  by_cases h : k = k' <;> simp [h]

/-- An entry put over the others, or none left under its key. -/
def putOpt (k : String) (v : Option β) (es : Entries β) : Entries β := match v with
  | some v => put k v es
  | none => remove k es

@[simp] theorem get_putOpt (k k' : String) (v : Option β) (es : Entries β) :
    get (putOpt k v es) k' = if k = k' then v else get es k' := by
  cases v
  · exact get_remove k k' es
  · exact get_put k k' _ es

/-! ## A record under a prefix -/

/-- The entries of a record, with a prefix before each key. -/
def under (p : String) (es : Entries β) : Entries β := es.map fun e => (p ++ e.1, e.2)

@[simp] theorem get_under (p : String) (es : Entries β) (k : String) : get (under p es) (p ++ k) = get es k := by
  induction es with
  | nil => rfl
  | cons e es ih =>
    rw [under, List.map_cons, get_cons, get_cons]
    change (get (under p es) (p ++ k)).or _ = _
    rw [ih]
    simp only [String.append_right_inj]

/-- Whether a key starts with a prefix. -/
def startsWith (p k : String) : Bool := p.toList.isPrefixOf k.toList

theorem startsWith_append (p k : String) : startsWith p (p ++ k) = true := by
  simp [startsWith, String.toList_append]

theorem get_under_of_not_startsWith {p k : String} (es : Entries β) (h : startsWith p k = false) :
    get (under p es) k = none := by
  refine get_eq_none fun e he hk => ?_
  obtain ⟨e', -, rfl⟩ := List.mem_map.1 he
  rw [← hk, startsWith_append] at h
  cases h

/-- Entries none of whose keys starts with a prefix hold nothing under it. -/
theorem get_append_of_not_startsWith {p : String} {es : Entries β} (h : ∀ e ∈ es, startsWith p e.1 = false)
    (k : String) : get es (p ++ k) = none := by
  refine get_eq_none fun e he hk => ?_
  have := h e he
  rw [hk, startsWith_append] at this
  cases this

/-- Under a prefix a map holds the entries of a record. -/
def Holds (es : Entries β) (p : String) (fs : Entries β) : Prop := ∀ k, get es (p ++ k) = get fs k

/-! ## A list under numbered prefixes -/

/-- The prefix of the `i`-th element of a list. -/
def numbered (p : String) (i : Nat) : String := p ++ toString i ++ "."

/-- Whether a key starts with a prefix and a digit. -/
def isNumbered (p k : String) : Bool :=
  startsWith p k && ((k.toList.drop p.toList.length).head?.any Char.isDigit)

theorem numbered_append (p q : String) (i : Nat) : numbered (p ++ q) i = p ++ numbered q i := by
  simp only [numbered, String.append_assoc]

theorem toList_numbered_append (p : String) (i : Nat) (k : String) :
    (numbered p i ++ k).toList = p.toList ++ (Nat.toDigits 10 i ++ '.' :: k.toList) := by
  have hi : (toString i).toList = Nat.toDigits 10 i := by
    rw [Nat.toString_eq_ofList_toDigits, String.toList_ofList]
  have hdot : (".").toList = ['.'] := rfl
  simp only [numbered, String.toList_append, hi, hdot, List.append_assoc, List.cons_append, List.nil_append]

theorem isNumbered_numbered (p : String) (i : Nat) (k : String) : isNumbered p (numbered p i ++ k) = true := by
  unfold isNumbered startsWith
  rw [toList_numbered_append, List.drop_left]
  cases hd : Nat.toDigits 10 i with
  | nil => exact absurd hd Nat.toDigits_ne_nil
  | cons c cs =>
    have hc : c.isDigit = true := Nat.isDigit_of_mem_toDigits (by decide) (by decide) (hd ▸ List.mem_cons_self)
    simp [hc]

/-- The digits before a character that is none are determined by the text. -/
theorem append_inj_of_isDigit {ds es : List Char} {c : Char} {xs ys : List Char} (hc : c.isDigit = false)
    (hd : ∀ d ∈ ds, d.isDigit = true) (he : ∀ e ∈ es, e.isDigit = true) (h : ds ++ c :: xs = es ++ c :: ys) :
    ds = es ∧ xs = ys := by
  induction ds generalizing es with
  | nil =>
    cases es with
    | nil => exact ⟨rfl, (List.cons.inj h).2⟩
    | cons e es =>
      have := he e (by simp)
      rw [← (List.cons.inj h).1, hc] at this
      cases this
  | cons d ds ih =>
    cases es with
    | nil =>
      have := hd d (by simp)
      rw [(List.cons.inj h).1, hc] at this
      cases this
    | cons e es =>
      rw [List.cons_append, List.cons_append, List.cons.injEq] at h
      obtain ⟨rfl, rfl⟩ := ih (fun x hx => hd x (by simp [hx])) (fun x hx => he x (by simp [hx])) h.2
      exact ⟨by rw [h.1], rfl⟩

theorem numbered_append_inj {p k k' : String} {i j : Nat} (h : numbered p i ++ k = numbered p j ++ k') :
    i = j ∧ k = k' := by
  have h := congrArg String.toList h
  rw [toList_numbered_append, toList_numbered_append] at h
  obtain ⟨hd, hk⟩ := append_inj_of_isDigit (by decide)
    (fun d => Nat.isDigit_of_mem_toDigits (by decide) (by decide))
    (fun d => Nat.isDigit_of_mem_toDigits (by decide) (by decide)) (List.append_cancel_left h)
  refine ⟨?_, String.toList_inj.1 hk⟩
  rw [← Nat.ofDigitChars_ten_toDigits (n := i), hd, Nat.ofDigitChars_ten_toDigits]

/-- The entries of the records of a list, from number `i` on. -/
def indexedFrom (p : String) : Nat → List (Entries β) → Entries β
  | _, [] => []
  | i, es :: ess => under (numbered p i) es ++ indexedFrom p (i + 1) ess

/-- The entries of the records of a list, each under its numbered prefix. -/
def indexed (p : String) (ess : List (Entries β)) : Entries β := indexedFrom p 0 ess

theorem get_under_numbered_of_ne {p : String} {i j : Nat} (es : Entries β) (k : String) (h : i ≠ j) :
    get (under (numbered p i) es) (numbered p j ++ k) = none := by
  refine get_eq_none fun e he hk => ?_
  obtain ⟨e', -, rfl⟩ := List.mem_map.1 he
  exact h (numbered_append_inj hk).1

theorem get_indexedFrom (p : String) (i j : Nat) (ess : List (Entries β)) (k : String) :
    get (indexedFrom p i ess) (numbered p j ++ k) = if i ≤ j then (ess[j - i]?).bind (get · k) else none := by
  induction ess generalizing i with
  | nil => simp [indexedFrom]
  | cons es ess ih =>
    rw [indexedFrom, get_append, ih]
    by_cases hij : i = j
    · subst hij
      have hlt : ¬ i + 1 ≤ i := by omega
      simp [hlt]
    · rw [get_under_numbered_of_ne es k hij, Option.or_none]
      by_cases hle : i ≤ j
      · have hsucc : j - i = (j - (i + 1)) + 1 := by omega
        rw [if_pos (by omega), if_pos hle, hsucc, List.getElem?_cons_succ]
      · rw [if_neg (by omega), if_neg hle]

/-- A record of a list is read back through its numbered prefix. -/
theorem get_indexed (p : String) (j : Nat) (ess : List (Entries β)) (k : String) :
    get (indexed p ess) (numbered p j ++ k) = (ess[j]?).bind (get · k) := by
  rw [indexed, get_indexedFrom]
  simp

/-- Every key of a list is a key of one of its elements under the number of that element. -/
theorem exists_of_mem_indexedFrom {p : String} {i : Nat} {ess : List (Entries β)} :
    ∀ e ∈ indexedFrom p i ess, ∃ j k, e.1 = numbered p j ++ k := by
  induction ess generalizing i with
  | nil => simp [indexedFrom]
  | cons es ess ih =>
    intro e he
    rcases List.mem_append.1 he with he | he
    · obtain ⟨e', -, rfl⟩ := List.mem_map.1 he
      exact ⟨i, e'.1, rfl⟩
    · exact ih e he

/-- A key without a number after the prefix is none of a list's. -/
theorem get_indexed_of_not_isNumbered {p k : String} (ess : List (Entries β)) (h : isNumbered p k = false) :
    get (indexed p ess) k = none := by
  refine get_eq_none fun e he hk => ?_
  obtain ⟨j, k', hj⟩ := exists_of_mem_indexedFrom e he
  rw [← hk, hj, isNumbered_numbered] at h
  cases h

/-- Entries without a number after the prefix hold nothing of a list. -/
theorem get_numbered_of_not_isNumbered {p : String} {es : Entries β} (h : ∀ e ∈ es, isNumbered p e.1 = false)
    (i : Nat) (k : String) : get es (numbered p i ++ k) = none := by
  refine get_eq_none fun e he hk => ?_
  have := h e he
  rw [hk, isNumbered_numbered] at this
  cases this

/-- A list read element by element. -/
theorem mapM_range {α γ : Type*} {f : Nat → Option γ} {g : α → γ} {l : List α}
    (h : ∀ i x, l[i]? = some x → f i = some (g x)) : (List.range l.length).mapM f = some (l.map g) := by
  induction l using List.reverseRecOn with
  | nil => rfl
  | append_singleton l x ih =>
    have hl := ih fun i y hy => h i y (by
      rw [List.getElem?_append_left (List.getElem?_eq_some_iff.1 hy).1]
      exact hy)
    have hx := h l.length x (by simp)
    rw [List.length_append, List.length_singleton, List.range_succ, List.mapM_append, hl]
    simp [hx]

end Entries

end Lib
