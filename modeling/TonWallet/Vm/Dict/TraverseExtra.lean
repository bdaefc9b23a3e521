/-
Directed traversal of an augmented dictionary (`dict_traverse_extra`): a function that is shown the extras decides at every
fork which branches are visited and in which order, and the first leaf that it accepts ends the search. Where it leaves out
only what has nothing to accept, the search finds the first accepted leaf of the whole dictionary.
-/
import TonWallet.Vm.AugmentedDictionary
import TonWallet.Vm.Dict.Shape

namespace TonWallet.Vm

open Lib TonWallet.Td CellBuilder

namespace Dict

/-- `traverse_func_t`: a prefix of the keys, the extra of the node, and the value if the node is a leaf. -/
abbrev TraverseFunc := List Bool → Slice → Option Slice → Int

/-- How a traversal ends: with the key, the value and the extra of a leaf, without one, or with a thrown
`CombineErrorValue`. -/
inductive Traversed
  | found (key : List Bool) (value extra : Slice)
  | nothing
  | combineError (r : Int)

/-- The second child is visited when nothing is found in the first. -/
def orNext (first second : Result Traversed) : Result Traversed := do
  match ← first with
  | .nothing => second
  | tmp => return tmp

/-- What is done at a fork with the answer `r` of the function: 1 visits only the left branch, 2 only the right one, 5 the
right and then the left one, and 6 the left and then the right one. -/
def traverseFork (r : Int) (visitChild : Bool → Result Traversed) : Result Traversed :=
  if r < 0 ∨ r % 4 = 3 then .ok (.combineError r)
  else if r % 4 = 0 then .ok .nothing
  else
    let sw := decide (r % 2 = 1)
    if r % 8 < 4 then visitChild !sw else orNext (visitChild sw) (visitChild !sw)

/-- `dict_traverse_extra`; `key`: the bits of the key buffer in front of the `n` bits that are left. -/
def dictTraverseExtra (aug : AugmentationData) (traverseNode : TraverseFunc) (dict : Option Cell) (key : List Bool)
    (n : Nat) : Result Traversed :=
  match dict with
  | none => .error (.check "dict.not_null()")
  | some dict => do
    let label ← LabelParser.ofCell (some dict) n .chkSize
    let payload := label.payload
    if _hn : label.lBits < n then
      let r := traverseNode (key ++ label.bits) ⟨payload.bits, payload.refs.drop 2⟩ none
      traverseFork r fun b =>
        dictTraverseExtra aug traverseNode payload.refs[b.toNat]? (key ++ label.bits ++ [b]) (n - label.lBits - 1)
    else
      match aug.skipExtra payload, aug.extractExtra payload with
      | some value, some extra =>
        let r := traverseNode (key ++ label.bits) extra (some value)
        if r < 0 then return .combineError r
        else if 0 < r then return .found (key ++ label.bits) value extra
        else return .nothing
      | _, _ => .error (.vmError "invalid leaf value/extra in an augmented dictionary")
termination_by n

/-! ## What is left out -/

/-- What a traversal that ends with a leaf says of it. -/
inductive Traversed.Is (aug : AugmentationData) : Traversed → Option (List Bool × Slice) → Prop
  | nothing : Is aug .nothing none
  | found {k : List Bool} {p value extra : Slice} (hvalue : aug.skipExtra p = some value)
      (hextra : aug.extractExtra p = some extra) : Is aug (.found k value extra) (some (k, p))

/-- The answer at a fork leaves out only what has nothing to accept; `back`: from the last key to the first. -/
inductive Steers (back : Bool) (accept : List Bool × Slice → Bool) (as bs : List (List Bool × Slice)) : Int → Prop
  | skip (ha : ∀ e ∈ as, accept e = false) (hb : ∀ e ∈ bs, accept e = false) : Steers back accept as bs 0
  | left (hb : ∀ e ∈ bs, accept e = false) : Steers back accept as bs 1
  | right (ha : ∀ e ∈ as, accept e = false) : Steers back accept as bs 2
  | both : Steers back accept as bs (if back then 5 else 6)

/-- An answer that leaves out less is good enough. -/
theorem Steers.imp {back : Bool} {accept accept' : List Bool × Slice → Bool} {as bs : List (List Bool × Slice)} {r : Int}
    (h : Steers back accept' as bs r) (himp : ∀ e, accept e = true → accept' e = true) : Steers back accept as bs r := by
  have hnot : ∀ e, accept' e = false → accept e = false := by
    intro e he
    cases haccept : accept e with
    | false => rfl
    | true =>
      rw [himp e haccept] at he
      cases he
  cases h with
  | skip ha hb => exact .skip (fun e he => hnot e (ha e he)) fun e he => hnot e (hb e he)
  | left hb => exact .left fun e he => hnot e (hb e he)
  | right ha => exact .right fun e he => hnot e (ha e he)
  | both => exact .both

/-- A function that looks for the first accepted leaf of the dictionaries with keys of length `keyLen` that keep the rules. -/
structure Directs (aug : AugmentationData) (R : NodeRules) (keyLen : Nat) (back : Bool)
    (accept : List Bool × Slice → Bool) (traverseNode : TraverseFunc) : Prop where
  leaf : ∀ k p, k.length = keyLen → R.leaf k p → ∃ value extra, aug.skipExtra p = some value ∧
    aug.extractExtra p = some extra ∧ (accept (k, p) = true → 0 < traverseNode k extra (some value)) ∧
    (accept (k, p) = false → traverseNode k extra (some value) = 0)
  fork : ∀ k m a b p, k.length + m + 1 = keyLen → a.Keyed m → b.Keyed m → R.fork (m + 1) a b p →
    Steers back accept (a.entries (k ++ [false])) (b.entries (k ++ [true])) (traverseNode k ⟨p.bits, p.refs.drop 2⟩ none)

section

variable {aug : AugmentationData} {R : NodeRules} {keyLen n : Nat} {back : Bool} {accept : List Bool × Slice → Bool}
  {visit : TraverseFunc} {q : List Bool} {t : PrefixTree Slice} {c : Cell}

/-- The entries in the order in which they are visited. -/
def visited (back : Bool) (es : List (List Bool × Slice)) : List (List Bool × Slice) := if back then es.reverse else es

theorem find?_eq_none_of_forall {es : List (List Bool × Slice)} (h : ∀ e ∈ es, accept e = false) :
    (visited back es).find? accept = none := by
  rw [List.find?_eq_none]
  intro e he
  have he : e ∈ es := by
    unfold visited at he
    split at he
    · exact List.mem_reverse.1 he
    · exact he
  rw [h e he]
  exact Bool.false_ne_true

theorem orNext_eq {first second : Result Traversed} {r1 r2 : Traversed} {o1 o2 : Option (List Bool × Slice)}
    (h1 : first = .ok r1) (his1 : r1.Is aug o1) (h2 : second = .ok r2) (his2 : r2.Is aug o2) :
    ∃ r, orNext first second = .ok r ∧ r.Is aug (o1.or o2) := by
  subst h1
  cases his1 with
  | nothing => exact ⟨r2, h2, his2⟩
  | found hvalue hextra => exact ⟨_, rfl, .found hvalue hextra⟩

/-- Both branches together, or only what is not left out of them. -/
theorem traverseFork_eq {as bs : List (List Bool × Slice)} {r : Int} {visitChild : Bool → Result Traversed}
    {ra rb : Traversed} (h : Steers back accept as bs r) (ha : visitChild false = .ok ra)
    (hisa : ra.Is aug ((visited back as).find? accept)) (hb : visitChild true = .ok rb)
    (hisb : rb.Is aug ((visited back bs).find? accept)) :
    ∃ r', traverseFork r visitChild = .ok r' ∧ r'.Is aug ((visited back (as ++ bs)).find? accept) := by
  have hfind : (visited back (as ++ bs)).find? accept =
      if back then ((visited back bs).find? accept).or ((visited back as).find? accept)
      else ((visited back as).find? accept).or ((visited back bs).find? accept) := by
    cases back <;> simp [visited, List.find?_append]
  rw [hfind]
  cases h with
  | skip hna hnb =>
    rw [find?_eq_none_of_forall hna, find?_eq_none_of_forall hnb]
    exact ⟨.nothing, rfl, by cases back <;> exact .nothing⟩
  | left hnb =>
    rw [find?_eq_none_of_forall hnb]
    exact ⟨ra, ha, by cases back <;> simpa using hisa⟩
  | right hna =>
    rw [find?_eq_none_of_forall hna]
    exact ⟨rb, hb, by cases back <;> simpa using hisb⟩
  | both =>
    cases back with
    | false => exact orNext_eq ha hisa hb hisb
    | true => exact orNext_eq hb hisb ha hisa

/-- The search finds the first leaf that is accepted. -/
theorem dictTraverseExtra_eq (hd : Directs aug R keyLen back accept visit) (h : Shape .chkSize R q n t c)
    (hlen : q.length + n = keyLen) :
    ∃ r, dictTraverseExtra aug visit (some c) q n = .ok r ∧ r.Is aug ((visited back (t.entries q)).find? accept) := by
  induction h with
  | @leaf q n c label l v hlabel hreads hn hrule =>
    obtain ⟨value, extra, hvalue, hextra, haccept, hreject⟩ := hd.leaf (q ++ l) v (by rw [List.length_append]; omega) hrule
    have hdef : dictTraverseExtra aug visit (some c) q n =
        .ok (if accept (q ++ l, v) then .found (q ++ l) value extra else .nothing) := by
      have hnot : ¬label.lBits < n := by
        rw [hreads.lBits_eq]
        omega
      rw [dictTraverseExtra, hlabel]
      simp only [bind, Except.bind, dif_neg hnot, hreads.bits_eq, hreads.payload_eq, hvalue, hextra]
      cases haccepted : accept (q ++ l, v) with
      | true =>
        have hpos := haccept haccepted
        rw [if_neg (by omega), if_pos hpos]
        rfl
      | false =>
        rw [hreject haccepted]
        rfl
    refine ⟨_, hdef, ?_⟩
    have hvisited : visited back (PrefixTree.entries q (.leaf l v)) = [(q ++ l, v)] := by
      cases back <;> rfl
    rw [hvisited, List.find?_singleton]
    split
    · exact .found hvalue hextra
    · exact .nothing
  | @fork q n m c ca cb label l a b e hlabel hreads hn hrule ha hb iha ihb =>
    have hsteers := hd.fork (q ++ l) m a b _ (by rw [List.length_append]; omega) ha.keyed hb.keyed hrule
    obtain ⟨ra, hra, hisa⟩ := iha (by simp only [List.length_append, List.length_singleton]; omega)
    obtain ⟨rb, hrb, hisb⟩ := ihb (by simp only [List.length_append, List.length_singleton]; omega)
    have hlt : l.length < n := by omega
    rw [dictTraverseExtra, hlabel]
    simp only [bind, Except.bind, hreads.lBits_eq, dif_pos hlt, hreads.bits_eq, hreads.payload_eq,
      show n - l.length - 1 = m by omega]
    exact traverseFork_eq hsteers hra hisa hrb hisb

end

end Dict

/-- `traverse_extra` of keys of length `keyLen`. -/
def AugmentedDictionary.traverseExtra (aug : AugmentationData) (traverseNode : Dict.TraverseFunc) (keyLen : Nat)
    (d : DictionaryBase) : Result Dict.Traversed :=
  if keyLen ≠ d.keyBits ∨ d.rootCell = none then .ok .nothing
  else Dict.dictTraverseExtra aug traverseNode d.rootCell [] keyLen

end TonWallet.Vm
