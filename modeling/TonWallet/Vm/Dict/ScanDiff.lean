/-
Comparing two dictionaries (`dict_scan_diff`): the trees are gone through together, subtrees with the same hash are left
out, and a function is told every key whose values differ, until it says no.
-/
import TonWallet.Lib.PrefixDiff
import TonWallet.Vm.AugmentedDictionary
import TonWallet.Vm.Dict.Shape

namespace TonWallet.Vm.Dict

open Lib TonWallet.Td CellBuilder

/-- `scan_diff_func_t` with what it keeps: whether to go on after a key with its two values. -/
abbrev DiffFunc (σ : Type) := List Bool × Option Slice × Option Slice → σ → Bool × σ

/-- How a kind of dictionary reads its labels and checks its nodes. -/
structure ScanOps where
  labelMode : LabelMode
  checkLeaf : Slice → List Bool → Bool
  checkForkRaw : Slice → Nat → Result Bool

/-- What the checks ask of a dictionary, where they are made. -/
def ScanOps.rules (ops : ScanOps) (checked : Bool) : NodeRules where
  leaf k v := checked = true → ops.checkLeaf v k = true
  fork m _ _ p := checked = true → ops.checkForkRaw p m = .ok true

/-- The rest is done unless what is before it was stopped. -/
def andThen {σ : Type} (r : Result (Bool × σ)) (next : σ → Result (Bool × σ)) : Result (Bool × σ) :=
  r >>= fun x => if x.1 then next x.2 else .ok x

namespace ScanOps

variable (ops : ScanOps)

/-- A leaf is checked in a mode that asks for it; `which`: the dictionary it is in. -/
def leafChecked (checked : Bool) (which : String) (payload : Slice) (key : List Bool) : Result Unit :=
  if checked && !ops.checkLeaf payload key then
    .error (.vmError ("invalid leaf in the " ++ which ++ " dictionary being compared"))
  else .ok ()

/-- A fork is checked in a mode that asks for it. -/
def forkChecked (checked : Bool) (which : String) (payload : Slice) (n : Nat) : Result Unit :=
  if checked then do
    if ← ops.checkForkRaw payload n then .ok ()
    else .error (.vmError ("invalid fork in the " ++ which ++ " dictionary being compared"))
  else .ok ()

end ScanOps

variable {σ : Type}

/-- `dict_scan_diff` where only one dictionary is there: all its keys are told. -/
def dictScanOnly (ops : ScanOps) (report : List Bool × Slice → σ → Bool × σ) (checked : Bool) (which : String)
    (dict : Option Cell) (key : List Bool) (n : Nat) (st : σ) : Result (Bool × σ) :=
  match dict with
  | none => .ok (true, st)
  | some dict => do
    let label ← LabelParser.ofCell (some dict) n ops.labelMode
    if _hn : label.lBits < n then
      let m := n - label.lBits - 1
      ops.forkChecked checked which label.payload (m + 1)
      andThen (dictScanOnly ops report checked which label.remainder.refs[0]? (key ++ label.bits ++ [false]) m st)
        fun st => dictScanOnly ops report checked which label.remainder.refs[1]? (key ++ label.bits ++ [true]) m st
    else
      ops.leafChecked checked which label.payload (key ++ label.bits)
      return report (key ++ label.bits, label.payload) st
termination_by n

/-- The keys of the first dictionary alone. -/
def dictScanFirst (ops : ScanOps) (f : DiffFunc σ) (mode : Nat) : Option Cell → List Bool → Nat → σ → Result (Bool × σ) :=
  dictScanOnly ops (fun x => f (x.1, some x.2, none)) (mode.testBit 0) "first"

/-- The keys of the second dictionary alone. -/
def dictScanSecond (ops : ScanOps) (f : DiffFunc σ) (mode : Nat) : Option Cell → List Bool → Nat → σ → Result (Bool × σ) :=
  dictScanOnly ops (fun x => f (x.1, none, some x.2)) (mode.testBit 1) "second"

variable [Digest]

/-- `dict_scan_diff`: the first `skip1` (`skip2`) bits of the keys of the one (the other) dictionary are left out; `key`:
the bits of the key buffer in front of the keys that are left, which have length `n`. -/
def dictScanDiff (ops : ScanOps) (f : DiffFunc σ) (mode : Nat) (dict1 dict2 : Option Cell) (key : List Bool)
    (n skip1 skip2 : Nat) (st : σ) : Result (Bool × σ) :=
  match dict1, dict2 with
  | none, dict2 => dictScanSecond ops f mode dict2 key n st
  | some dict1, none => dictScanFirst ops f mode (some dict1) key n st
  | some dict1, some dict2 =>
    if skip1 = skip2 ∧ dict1.getHash maxLevel = dict2.getHash maxLevel then .ok (true, st)
    else do
      let label1 ← LabelParser.ofCell (some dict1) (n + skip1) ops.labelMode
      let label2 ← LabelParser.ofCell (some dict2) (n + skip2) ops.labelMode
      let l1 := label1.lBits - skip1
      let l2 := label2.lBits - skip2
      let buffer := key.take (key.length - skip1) ++ label1.bits
      let l1Bits := buffer.drop key.length
      let l2Bits := label2.bits.drop skip2
      let c := label2.commonPrefixLen (buffer.drop (key.length - skip2)) - skip2
      let label := l1Bits.take c
      if c < l1 ∧ c < l2 then
        -- the dictionaries have no key in common
        if l1Bits.getD c false then
          andThen (dictScanSecond ops f mode (some dict2) (key.take (key.length - skip2)) (n + skip2) st)
            (dictScanFirst ops f mode (some dict1) (key.take (key.length - skip1)) (n + skip1))
        else
          andThen (dictScanFirst ops f mode (some dict1) (key.take (key.length - skip1)) (n + skip1) st)
            (dictScanSecond ops f mode (some dict2) (key.take (key.length - skip2)) (n + skip2))
      else if _hc : c < n then
        let m := n - c - 1
        if c = l1 ∧ c = l2 then
          ops.forkChecked (mode.testBit 0) "first" label1.payload (m + 1)
          ops.forkChecked (mode.testBit 1) "second" label2.payload (m + 1)
          andThen (dictScanDiff ops f mode label1.remainder.refs[0]? label2.remainder.refs[0]? (key ++ label ++ [false]) m 0 0 st)
            fun st => dictScanDiff ops f mode label1.remainder.refs[1]? label2.remainder.refs[1]? (key ++ label ++ [true]) m 0 0 st
        else if c = l1 then
          ops.forkChecked (mode.testBit 0) "first" label1.payload (n - c)
          -- one of the children is compared with the second dictionary
          if l2Bits.getD c false then
            andThen (dictScanFirst ops f mode label1.remainder.refs[0]? (key ++ label ++ [false]) m st)
              fun st => dictScanDiff ops f mode label1.remainder.refs[1]? (some dict2) (key ++ label ++ [true]) m 0
                (skip2 + c + 1) st
          else
            andThen (dictScanDiff ops f mode label1.remainder.refs[0]? (some dict2) (key ++ label ++ [false]) m 0
                (skip2 + c + 1) st)
              fun st => dictScanFirst ops f mode label1.remainder.refs[1]? (key ++ label ++ [true]) m st
        else
          ops.forkChecked (mode.testBit 1) "second" label2.payload (n - c)
          if l1Bits.getD c false then
            andThen (dictScanSecond ops f mode label2.remainder.refs[0]? (key ++ label ++ [false]) m st)
              fun st => dictScanDiff ops f mode (some dict1) label2.remainder.refs[1]? (key ++ label ++ [true]) m
                (skip1 + c + 1) 0 st
          else
            andThen (dictScanDiff ops f mode (some dict1) label2.remainder.refs[0]? (key ++ label ++ [false]) m
                (skip1 + c + 1) 0 st)
              fun st => dictScanSecond ops f mode label2.remainder.refs[1]? (key ++ label ++ [true]) m st
      else
        -- two leaves of one key
        ops.leafChecked (mode.testBit 0) "first" label1.payload buffer
        ops.leafChecked (mode.testBit 1) "second" label2.payload buffer
        if label1.payload.contentsEqual label2.payload then return (true, st)
        else return f (buffer, some label1.payload, some label2.payload) st
termination_by n

/-! ## One dictionary -/

section

variable {ops : ScanOps} {checked : Bool} {q : List Bool} {n : Nat} {t : PrefixTree Slice} {c : Cell}

omit [Digest]

theorem andThen_ok (x : Bool × σ) (next : σ → Result (Bool × σ)) :
    andThen (.ok x) next = if x.1 then next x.2 else .ok x := rfl

/-- Two parts of a scan that visit what there is, one after the other. -/
theorem andThen_visitAll {β : Type} (f : β → σ → Bool × σ) (xs ys : List β) (st : σ) {r : Result (Bool × σ)}
    {next : σ → Result (Bool × σ)} (hr : r = .ok (visitAll f xs st)) (hnext : ∀ st, next st = .ok (visitAll f ys st)) :
    andThen r next = .ok (visitAll f (xs ++ ys) st) := by
  rw [hr, andThen_ok, visitAll_append, hnext]
  cases (visitAll f xs st).1 <;> rfl

theorem leafChecked_ok {which : String} {v : Slice} {k : List Bool} (h : (ops.rules checked).leaf k v) :
    ops.leafChecked checked which v k = .ok () := by
  unfold ScanOps.leafChecked
  cases checked with
  | false => rfl
  | true => rw [h rfl]; rfl

theorem forkChecked_ok {which : String} {m : Nat} {a b : PrefixTree Slice} {p : Slice}
    (h : (ops.rules checked).fork m a b p) : ops.forkChecked checked which p m = .ok () := by
  unfold ScanOps.forkChecked
  cases checked with
  | false => rfl
  | true => rw [if_pos rfl, h rfl]; rfl

/-- A dictionary alone is told entry by entry. -/
theorem dictScanOnly_eq (report : List Bool × Slice → σ → Bool × σ) (which : String)
    (h : Shape ops.labelMode (ops.rules checked) q n t c) (st : σ) :
    dictScanOnly ops report checked which (some c) q n st = .ok (visitAll report (t.entries q) st) := by
  induction h generalizing st with
  | @leaf q n c label l v hlabel hreads hn hrule =>
    have hnot : ¬label.lBits < n := by
      rw [hreads.lBits_eq]
      omega
    rw [dictScanOnly, hlabel, PrefixTree.entries, visitAll_singleton]
    simp only [bind, Except.bind, dif_neg hnot, hreads.bits_eq, hreads.payload_eq, leafChecked_ok hrule]
    rfl
  | @fork q n m c ca cb label l a b e hlabel hreads hn hrule _ _ iha ihb =>
    have hlt : label.lBits < n := by
      rw [hreads.lBits_eq]
      omega
    have hm : n - l.length - 1 = m := by omega
    have hdef : dictScanOnly ops report checked which (some c) q n st =
        andThen (dictScanOnly ops report checked which (some ca) (q ++ l ++ [false]) m st)
          fun st => dictScanOnly ops report checked which (some cb) (q ++ l ++ [true]) m st := by
      rw [dictScanOnly, hlabel]
      simp only [bind, Except.bind, dif_pos hlt, hreads.bits_eq, hreads.payload_eq, hreads.refs_eq, hreads.lBits_eq, hm,
        forkChecked_ok hrule]
      rfl
    rw [hdef, PrefixTree.entries]
    exact andThen_visitAll report _ _ st (iha st) ihb

/-- The outcome of a scan: it visits the differences of two maps. -/
def Scans (f : DiffFunc σ) (q : List Bool) (m1 m2 : List Bool → Option Slice) (run : σ → Result (Bool × σ)) : Prop :=
  ∃ ds, DiffsOf q m1 m2 ds ∧ ∀ st, run st = .ok (visitAll f ds st)

variable {f : DiffFunc σ} {mode : Nat}

theorem scans_first (h : Shape ops.labelMode (ops.rules (mode.testBit 0)) q n t c) :
    Scans f q t.get (fun _ => none) (dictScanFirst ops f mode (some c) q n) :=
  ⟨_, (DiffsOf.entries q t).1, fun st => by rw [visitAll_map]; exact dictScanOnly_eq _ _ h st⟩

theorem scans_second (h : Shape ops.labelMode (ops.rules (mode.testBit 1)) q n t c) :
    Scans f q (fun _ => none) t.get (dictScanSecond ops f mode (some c) q n) :=
  ⟨_, (DiffsOf.entries q t).2, fun st => by rw [visitAll_map]; exact dictScanOnly_eq _ _ h st⟩

end

/-! ## Cells with different contents -/

/-- The cells that a cell refers to, over any number of steps. -/
inductive Subcell (root : Cell) : Cell → Prop
  | root : Subcell root root
  | ref {c d : Cell} (hc : Subcell root c) (hd : d ∈ c.refs) : Subcell root d

omit [Digest] in
theorem Subcell.trans {a b c : Cell} (hab : Subcell a b) (hbc : Subcell b c) : Subcell a c := by
  induction hbc with
  | root => exact hab
  | ref _ hd ih => exact .ref ih hd

omit [Digest] in
/-- A cell without references is all there is. -/
theorem Subcell.eq_of_refs {a b : Cell} (hrefs : a.refs = []) (h : Subcell a b) : b = a := by
  induction h with
  | root => rfl
  | ref _ hd ih =>
    rw [ih, hrefs] at hd
    cases hd

/-- No two cells of two dictionaries have the same hash without being the same. -/
def NoCollision (c1 c2 : Cell) : Prop :=
  ∀ d1 d2, Subcell c1 d1 → Subcell c2 d2 → d1.getHash maxLevel = d2.getHash maxLevel → d1 = d2

section

variable {c1 c2 d1 d2 : Cell}

theorem NoCollision.sub (h : NoCollision c1 c2) (h1 : Subcell c1 d1) (h2 : Subcell c2 d2) : NoCollision d1 d2 :=
  fun _ _ hs1 hs2 heq => h _ _ (h1.trans hs1) (h2.trans hs2) heq

/-- Without collisions, slices of the two dictionaries have equal contents when they are equal. -/
theorem contentsEqual_iff (h : NoCollision c1 c2) {v1 v2 : Slice} (h1 : ∀ d ∈ v1.refs, d ∈ c1.refs)
    (h2 : ∀ d ∈ v2.refs, d ∈ c2.refs) : v1.contentsEqual v2 = true ↔ v1 = v2 := by
  constructor
  · intro heq
    rw [Slice.contentsEqual, Bool.and_eq_true, beq_iff_eq, beq_iff_eq] at heq
    obtain ⟨hbits, hhash⟩ := heq
    have hrefs : v1.refs = v2.refs := by
      obtain ⟨b1, rs1⟩ := v1
      obtain ⟨b2, rs2⟩ := v2
      simp only at h1 h2 hhash
      clear hbits
      induction rs1 generalizing rs2 with
      | nil =>
        cases rs2 with
        | nil => rfl
        | cons _ _ => cases hhash
      | cons r rs1 ih =>
        cases rs2 with
        | nil => cases hhash
        | cons s rs2 =>
          rw [List.map_cons, List.map_cons, List.cons.injEq] at hhash
          have hrs := h r s (.ref .root (h1 r List.mem_cons_self)) (.ref .root (h2 s List.mem_cons_self)) hhash.1
          have hrest := ih (fun d hd => h1 d (List.mem_cons_of_mem r hd)) rs2 (fun d hd => h2 d (List.mem_cons_of_mem s hd))
            hhash.2
          exact congrArg₂ List.cons hrs hrest
    cases v1
    cases v2
    simp only at hbits hrefs
    rw [hbits, hrefs]
  · rintro rfl
    exact Slice.contentsEqual_self v1

omit [Digest]

/-- What is behind a label refers to what the cell refers to. -/
theorem refs_eq_of_ofCell {c : Cell} {n : Nat} {mode : LabelMode} {label : LabelParser} {l : List Bool} {p : Slice}
    (h : LabelParser.ofCell (some c) n mode = .ok label) (hreads : label.Reads l p) : p.refs = c.refs := by
  rw [eq_of_ofCell h, ← hreads.refs_eq]
  rfl

end

/-! ## Two dictionaries -/

section

variable {ops : ScanOps} (f : DiffFunc σ) (mode : Nat)

section Steps

variable {dict1 dict2 : Cell} {key s1 s2 l1 l2 : List Bool} {n : Nat} {label1 label2 : LabelParser} {p1 p2 : Slice}
  (hlabel1 : LabelParser.ofCell (some dict1) (n + s1.length) ops.labelMode = .ok label1)
  (hlabel2 : LabelParser.ofCell (some dict2) (n + s2.length) ops.labelMode = .ok label2)
  (hreads1 : label1.Reads (s1 ++ l1) p1) (hreads2 : label2.Reads (s2 ++ l2) p2) (hs1 : s1 <:+ key) (hs2 : s2 <:+ key)

include hlabel1 hlabel2 hreads1 hreads2 hs1 hs2

/-- A step, with what the labels are read as. -/
theorem dictScanDiff_eq (hhash : ¬(s1.length = s2.length ∧ dict1.getHash maxLevel = dict2.getHash maxLevel)) {c : Nat}
    (hc : commonPrefixLen l2 l1 = c) (st : σ) :
    dictScanDiff ops f mode (some dict1) (some dict2) key n s1.length s2.length st =
      if c < l1.length ∧ c < l2.length then
        if l1.getD c false then
          andThen (dictScanSecond ops f mode (some dict2) (key.take (key.length - s2.length)) (n + s2.length) st)
            (dictScanFirst ops f mode (some dict1) (key.take (key.length - s1.length)) (n + s1.length))
        else
          andThen (dictScanFirst ops f mode (some dict1) (key.take (key.length - s1.length)) (n + s1.length) st)
            (dictScanSecond ops f mode (some dict2) (key.take (key.length - s2.length)) (n + s2.length))
      else if c < n then
        if c = l1.length ∧ c = l2.length then do
          ops.forkChecked (mode.testBit 0) "first" p1 (n - c - 1 + 1)
          ops.forkChecked (mode.testBit 1) "second" p2 (n - c - 1 + 1)
          andThen (dictScanDiff ops f mode p1.refs[0]? p2.refs[0]? (key ++ l1.take c ++ [false]) (n - c - 1) 0 0 st)
            fun st => dictScanDiff ops f mode p1.refs[1]? p2.refs[1]? (key ++ l1.take c ++ [true]) (n - c - 1) 0 0 st
        else if c = l1.length then do
          ops.forkChecked (mode.testBit 0) "first" p1 (n - c)
          if l2.getD c false then
            andThen (dictScanFirst ops f mode p1.refs[0]? (key ++ l1.take c ++ [false]) (n - c - 1) st)
              fun st => dictScanDiff ops f mode p1.refs[1]? (some dict2) (key ++ l1.take c ++ [true]) (n - c - 1) 0
                (s2.length + c + 1) st
          else
            andThen (dictScanDiff ops f mode p1.refs[0]? (some dict2) (key ++ l1.take c ++ [false]) (n - c - 1) 0
                (s2.length + c + 1) st)
              fun st => dictScanFirst ops f mode p1.refs[1]? (key ++ l1.take c ++ [true]) (n - c - 1) st
        else do
          ops.forkChecked (mode.testBit 1) "second" p2 (n - c)
          if l1.getD c false then
            andThen (dictScanSecond ops f mode p2.refs[0]? (key ++ l1.take c ++ [false]) (n - c - 1) st)
              fun st => dictScanDiff ops f mode (some dict1) p2.refs[1]? (key ++ l1.take c ++ [true]) (n - c - 1)
                (s1.length + c + 1) 0 st
          else
            andThen (dictScanDiff ops f mode (some dict1) p2.refs[0]? (key ++ l1.take c ++ [false]) (n - c - 1)
                (s1.length + c + 1) 0 st)
              fun st => dictScanSecond ops f mode p2.refs[1]? (key ++ l1.take c ++ [true]) (n - c - 1) st
      else do
        ops.leafChecked (mode.testBit 0) "first" p1 (key ++ l1)
        ops.leafChecked (mode.testBit 1) "second" p2 (key ++ l1)
        if p1.contentsEqual p2 then return (true, st) else return f (key ++ l1, some p1, some p2) st := by
  obtain ⟨hbuffer, hdrop, hcommon, hlen1, hlen2⟩ := along_key hs1 hs2 hc
  have hbind {α β : Type} (a : α) (g : α → Result β) : ((.ok a : Result α) >>= g) = g a := rfl
  rw [dictScanDiff, if_neg hhash, hlabel1, hlabel2, hbind, hbind]
  simp only [hreads1.lBits_eq, hreads2.lBits_eq, hreads1.bits_eq, hreads2.bits_eq, hreads1.payload_eq,
    hreads2.payload_eq, hreads1.refs_eq, hreads2.refs_eq, hbuffer, hdrop, LabelParser.commonPrefixLen, hcommon, hlen1,
    hlen2, List.drop_left]
  by_cases hpart : c < l1.length ∧ c < l2.length
  · rw [if_pos hpart, if_pos hpart]
  · rw [if_neg hpart, if_neg hpart]
    by_cases hcn : c < n
    · rw [dif_pos hcn, if_pos hcn]
    · rw [dif_neg hcn, if_neg hcn]

end Steps

omit [Digest] in
/-- Two parts of a scan for the two sides of a label. -/
theorem Scans.sides {q l : List Bool} {m1 m2 a1 b1 a2 b2 : List Bool → Option Slice} {r0 r1 run : σ → Result (Bool × σ)}
    (hm1 : Splits l m1 a1 b1) (hm2 : Splits l m2 a2 b2) (h0 : Scans f (q ++ l ++ [false]) a1 a2 r0)
    (h1 : Scans f (q ++ l ++ [true]) b1 b2 r1) (hrun : ∀ st, run st = andThen (r0 st) r1) : Scans f q m1 m2 run := by
  obtain ⟨ds0, hds0, hr0⟩ := h0
  obtain ⟨ds1, hds1, hr1⟩ := h1
  exact ⟨ds0 ++ ds1, hds0.sides hm1 hm2 hds1, fun st => by rw [hrun]; exact andThen_visitAll f _ _ st (hr0 st) hr1⟩

omit [Digest] in
/-- The keys of a tree that is scanned alone, with bits in front of it that belong to what comes before. -/
theorem Scans.of_prepend {q s : List Bool} {t : PrefixTree Slice} {run : σ → Result (Bool × σ)} :
    (Scans f q (t.prepend s).get (fun _ => none) run → Scans f (q ++ s) t.get (fun _ => none) run) ∧
      (Scans f q (fun _ => none) (t.prepend s).get run → Scans f (q ++ s) (fun _ => none) t.get run) := by
  have hunder : Under s (t.prepend s).get := by
    intro k hk
    obtain ⟨r, rfl⟩ := PrefixTree.under_label (t.prepend s) k hk
    exact ⟨t.label ++ r, by rw [PrefixTree.label_prepend, List.append_assoc]⟩
  have hnone : Under s (fun _ => none : List Bool → Option Slice) := fun k hk => by cases hk
  have hget : (fun k => (t.prepend s).get (s ++ k)) = t.get := funext fun k => by rw [PrefixTree.get_prepend]
  constructor
  · rintro ⟨ds, hds, hrun⟩
    have := hds.under hunder hnone
    rw [hget] at this
    exact ⟨ds, this, hrun⟩
  · rintro ⟨ds, hds, hrun⟩
    have := hds.under hnone hunder
    rw [hget] at this
    exact ⟨ds, this, hrun⟩

end

/-- Two dictionaries that are parsed are scanned for all their differences. -/
theorem scans_dictScanDiff {ops : ScanOps} (f : DiffFunc σ) (mode : Nat) {n : Nat} {t1 t2 : PrefixTree Slice}
    {c1 c2 : Cell} {q1 q2 s1 s2 q : List Bool}
    (h1 : Shape ops.labelMode (ops.rules (mode.testBit 0)) q1 (n + s1.length) (t1.prepend s1) c1)
    (h2 : Shape ops.labelMode (ops.rules (mode.testBit 1)) q2 (n + s2.length) (t2.prepend s2) c2)
    (hq1 : q = q1 ++ s1) (hq2 : q = q2 ++ s2) (hcol : NoCollision c1 c2) :
    Scans f q t1.get t2.get (dictScanDiff ops f mode (some c1) (some c2) q n s1.length s2.length) := by
  induction n using Nat.strong_induction_on generalizing t1 t2 c1 c2 q1 q2 s1 s2 q with
  | _ n ih =>
  by_cases hhash : s1.length = s2.length ∧ c1.getHash maxLevel = c2.getHash maxLevel
  · -- the same cell is the same tree
    obtain ⟨hlen, hhash⟩ := hhash
    obtain rfl := hcol c1 c2 .root .root hhash
    obtain ⟨rfl, rfl⟩ := List.append_inj' (hq1.symm.trans hq2) hlen
    have htree := h1.unique h2
    have hsame : t1.get = t2.get := by
      funext k
      rw [← PrefixTree.get_prepend s1 k t1, htree, PrefixTree.get_prepend]
    refine ⟨[], hsame ▸ DiffsOf.same q _, fun st => ?_⟩
    rw [dictScanDiff, if_pos ⟨rfl, rfl⟩]
    rfl
  · obtain ⟨hkeyed1, label1, p1, hlabel1, hreads1, hbehind1⟩ := h1.ofCell_prepend
    obtain ⟨hkeyed2, label2, p2, hlabel2, hreads2, hbehind2⟩ := h2.ofCell_prepend
    have hlen1 := hkeyed1.length_label_le
    have hlen2 := hkeyed2.length_label_le
    have hsub1 := fun {d : Cell} (hd : d ∈ p1.refs) => Subcell.ref .root (refs_eq_of_ofCell hlabel1 hreads1 ▸ hd)
    have hsub2 := fun {d : Cell} (hd : d ∈ p2.refs) => Subcell.ref .root (refs_eq_of_ofCell hlabel2 hreads2 ▸ hd)
    have hequal := @contentsEqual_iff _ c1 c2 hcol p1 p2 (fun d hd => refs_eq_of_ofCell hlabel1 hreads1 ▸ hd)
      (fun d hd => refs_eq_of_ofCell hlabel2 hreads2 ▸ hd)
    have hstep := fun {c : Nat} (hc : commonPrefixLen t2.label t1.label = c) =>
      dictScanDiff_eq f mode hlabel1 hlabel2 hreads1 hreads2 ⟨q1, hq1.symm⟩ ⟨q2, hq2.symm⟩ hhash hc
    have hbefore1 : q.take (q.length - s1.length) = q1 := by
      rw [hq1, List.length_append, Nat.add_sub_cancel, List.take_left]
    have hbefore2 : q.take (q.length - s2.length) = q2 := by
      rw [hq2, List.length_append, Nat.add_sub_cancel, List.take_left]
    rw [hbefore1, hbefore2] at hstep
    rw [← hq1] at hbehind1
    rw [← hq2] at hbehind2
    rcases prefix_or_diverge t1.label t2.label with ⟨r, hr⟩ | ⟨sw, r, hr⟩ | ⟨l, sw, r1, r2, hl1, hl2⟩
    · obtain ⟨l, hl⟩ : ∃ l, t1.label = l := ⟨_, rfl⟩
      rw [hl] at hr hbehind1 hlen1
      have hc : commonPrefixLen t2.label t1.label = l.length := by
        rw [commonPrefixLen_comm, hl, hr, commonPrefixLen_self_append]
      have htake : t1.label.take l.length = l := by
        rw [hl, List.take_length]
      cases r with
      | nil =>
        -- the labels are the same
        rw [List.append_nil] at hr
        rw [hr] at hbehind2
        by_cases hlt : l.length < n
        · obtain ⟨a1, b1, m, ca1, cb1, e1, rfl, hm, rfl, hrule1, ha1, hb1⟩ := hbehind1.fork hl hlt
          obtain ⟨a2, b2, m', ca2, cb2, e2, rfl, hm', rfl, hrule2, ha2, hb2⟩ := hbehind2.fork hr hlt
          obtain rfl : m' = m := by omega
          have hm1 : n - l.length - 1 = m' := by omega
          have hleft := @ih m' (by omega) a1 a2 ca1 ca2 _ _ [] [] _ (by rw [PrefixTree.prepend_nil]; exact ha1)
            (by rw [PrefixTree.prepend_nil]; exact ha2) (List.append_nil _).symm (List.append_nil _).symm
            (hcol.sub (hsub1 (by simp)) (hsub2 (by simp)))
          have hright := @ih m' (by omega) b1 b2 cb1 cb2 _ _ [] [] _ (by rw [PrefixTree.prepend_nil]; exact hb1)
            (by rw [PrefixTree.prepend_nil]; exact hb2) (List.append_nil _).symm (List.append_nil _).symm
            (hcol.sub (hsub1 (by simp)) (hsub2 (by simp)))
          refine Scans.sides f (PrefixTree.splits_fork hkeyed1) (PrefixTree.splits_fork hkeyed2) hleft hright fun st => ?_
          rw [hstep hc, if_neg (by rw [hl]; omega), if_pos hlt, if_pos ⟨by rw [hl], by rw [hr]⟩, htake, hm1,
            forkChecked_ok hrule1, forkChecked_ok hrule2]
          rfl
        · have hn : l.length = n := by omega
          obtain ⟨rfl, hrule1⟩ := hbehind1.leaf hl hn
          obtain ⟨rfl, hrule2⟩ := hbehind2.leaf hr hn
          have hrun : ∀ st, dictScanDiff ops f mode (some c1) (some c2) q n s1.length s2.length st =
              if p1.contentsEqual p2 then .ok (true, st) else .ok (f (q ++ l, some p1, some p2) st) := by
            intro st
            rw [hstep hc, if_neg (by rw [PrefixTree.label]; omega), if_neg hlt, PrefixTree.label, leafChecked_ok hrule1,
              leafChecked_ok hrule2]
            rfl
          by_cases heq : p1 = p2
          · refine ⟨[], heq ▸ DiffsOf.same q _, fun st => ?_⟩
            rw [hrun, if_pos (hequal.2 heq)]
            rfl
          · refine ⟨[(q ++ l, some p1, some p2)], .single (fun r hr => ?_) (PrefixTree.get_leaf_self l p1)
              (PrefixTree.get_leaf_self l p2) (fun h => heq (Option.some.inj h)), fun st => ?_⟩
            · simp only [PrefixTree.get, if_neg hr, and_self]
            · rw [hrun, if_neg (fun h => heq (hequal.1 h)), visitAll_singleton]
      | cons sw r =>
        -- the label of the first tree is in front of that of the second one
        have hlt : l.length < t2.label.length := by
          rw [hr, List.length_append, List.length_cons]
          omega
        obtain ⟨a, b, m, ca, cb, e, rfl, hm, rfl, hrule1, ha, hb⟩ := hbehind1.fork hl (by omega)
        obtain ⟨t2, rfl, rfl⟩ := PrefixTree.exists_prepend (p := l ++ [sw]) (r := r) (by rw [hr]; simp)
        have hm1 : n - l.length - 1 = m := by omega
        have hbit : (PrefixTree.prepend (l ++ [sw]) t2).label.getD l.length false = sw := by
          rw [hr]
          simp
        have hskip : s2.length + l.length + 1 = (s2 ++ (l ++ [sw])).length := by
          simp [Nat.add_assoc]
        have h2' : Shape ops.labelMode (ops.rules (mode.testBit 1)) q2 (m + (s2 ++ (l ++ [sw])).length)
            (t2.prepend (s2 ++ (l ++ [sw]))) c2 := by
          rw [PrefixTree.prepend_prepend] at h2
          rwa [show m + (s2 ++ (l ++ [sw])).length = n + s2.length by simp; omega]
        have hq2' : q ++ l ++ [sw] = q2 ++ (s2 ++ (l ++ [sw])) := by simp [hq2]
        have hrun : ∀ st, dictScanDiff ops f mode (some c1) (some c2) q n s1.length s2.length st = if sw = true then
              andThen (dictScanFirst ops f mode (some ca) (q ++ l ++ [false]) m st)
                (dictScanDiff ops f mode (some cb) (some c2) (q ++ l ++ [true]) m 0 (s2 ++ (l ++ [sw])).length)
            else
              andThen (dictScanDiff ops f mode (some ca) (some c2) (q ++ l ++ [false]) m 0 (s2 ++ (l ++ [sw])).length st)
                (dictScanFirst ops f mode (some cb) (q ++ l ++ [true]) m) := by
          intro st
          rw [hstep hc, if_neg (by rw [hl]; omega), if_pos (by omega), if_neg (by omega), if_pos (by rw [hl]), hbit, htake,
            hskip, hm1, show n - l.length = m + 1 by omega, forkChecked_ok hrule1]
          rfl
        cases sw with
        | false =>
          have hleft := @ih m (by omega) a t2 ca c2 _ _ [] _ _ (by rw [PrefixTree.prepend_nil]; exact ha) h2'
            (List.append_nil _).symm hq2' (hcol.sub (hsub1 (by simp)) .root)
          exact Scans.sides f (PrefixTree.splits_fork hkeyed1) (PrefixTree.splits_prepend_false l t2) hleft
            (scans_first hb) hrun
        | true =>
          have hright := @ih m (by omega) b t2 cb c2 _ _ [] _ _ (by rw [PrefixTree.prepend_nil]; exact hb) h2'
            (List.append_nil _).symm hq2' (hcol.sub (hsub1 (by simp)) .root)
          exact Scans.sides f (PrefixTree.splits_fork hkeyed1) (PrefixTree.splits_prepend_true l t2) (scans_first ha)
            hright hrun
    · -- the label of the second tree is in front of that of the first one
      obtain ⟨l, hl⟩ : ∃ l, t2.label = l := ⟨_, rfl⟩
      rw [hl] at hr hbehind2
      have hc : commonPrefixLen t2.label t1.label = l.length := by
        rw [hl, hr, commonPrefixLen_self_append]
      have hlt : l.length < t1.label.length := by
        rw [hr, List.length_append, List.length_cons]
        omega
      obtain ⟨a, b, m, ca, cb, e, rfl, hm, rfl, hrule2, ha, hb⟩ := hbehind2.fork hl (by omega)
      obtain ⟨t1, rfl, rfl⟩ := PrefixTree.exists_prepend (p := l ++ [sw]) (r := r) (by rw [hr]; simp)
      have hm1 : n - l.length - 1 = m := by omega
      have hbit : (PrefixTree.prepend (l ++ [sw]) t1).label.getD l.length false = sw := by
        rw [hr]
        simp
      have htake : (PrefixTree.prepend (l ++ [sw]) t1).label.take l.length = l := by
        rw [hr, List.take_left]
      have hskip : s1.length + l.length + 1 = (s1 ++ (l ++ [sw])).length := by
        simp [Nat.add_assoc]
      have h1' : Shape ops.labelMode (ops.rules (mode.testBit 0)) q1 (m + (s1 ++ (l ++ [sw])).length)
          (t1.prepend (s1 ++ (l ++ [sw]))) c1 := by
        rw [PrefixTree.prepend_prepend] at h1
        rwa [show m + (s1 ++ (l ++ [sw])).length = n + s1.length by simp; omega]
      have hq1' : q ++ l ++ [sw] = q1 ++ (s1 ++ (l ++ [sw])) := by simp [hq1]
      have hrun : ∀ st, dictScanDiff ops f mode (some c1) (some c2) q n s1.length s2.length st = if sw = true then
            andThen (dictScanSecond ops f mode (some ca) (q ++ l ++ [false]) m st)
              (dictScanDiff ops f mode (some c1) (some cb) (q ++ l ++ [true]) m (s1 ++ (l ++ [sw])).length 0)
          else
            andThen (dictScanDiff ops f mode (some c1) (some ca) (q ++ l ++ [false]) m (s1 ++ (l ++ [sw])).length 0 st)
              (dictScanSecond ops f mode (some cb) (q ++ l ++ [true]) m) := by
        intro st
        rw [hstep hc, if_neg (by rw [hl]; omega), if_pos (by omega), if_neg (by omega), if_neg (by omega), hbit, htake,
          hskip, hm1, show n - l.length = m + 1 by omega, forkChecked_ok hrule2]
        rfl
      cases sw with
      | false =>
        have hleft := @ih m (by omega) t1 a c1 ca _ _ _ [] _ h1' (by rw [PrefixTree.prepend_nil]; exact ha) hq1'
          (List.append_nil _).symm (hcol.sub .root (hsub2 (by simp)))
        exact Scans.sides f (PrefixTree.splits_prepend_false l t1) (PrefixTree.splits_fork hkeyed2) hleft
          (scans_second hb) hrun
      | true =>
        have hright := @ih m (by omega) t1 b c1 cb _ _ _ [] _ h1' (by rw [PrefixTree.prepend_nil]; exact hb) hq1'
          (List.append_nil _).symm (hcol.sub .root (hsub2 (by simp)))
        exact Scans.sides f (PrefixTree.splits_prepend_true l t1) (PrefixTree.splits_fork hkeyed2) (scans_second ha)
          hright hrun
    · -- the labels part
      have hc : commonPrefixLen t2.label t1.label = l.length := by
        rw [commonPrefixLen_comm, hl1, hl2, commonPrefixLen_diverge]
      obtain ⟨t1, rfl, rfl⟩ := PrefixTree.exists_prepend (p := l ++ [sw]) (r := r1) (by rw [hl1]; simp)
      obtain ⟨t2, rfl, rfl⟩ := PrefixTree.exists_prepend (p := l ++ [!sw]) (r := r2) (by rw [hl2]; simp)
      have hfirst := Scans.of_prepend f |>.1 (scans_first (f := f) h1)
      have hsecond := Scans.of_prepend f |>.2 (scans_second (f := f) h2)
      have hbit : (PrefixTree.prepend (l ++ [sw]) t1).label.getD l.length false = sw := by
        rw [hl1]
        simp
      have hrun := fun st => hstep hc st
      simp only [hbit, if_pos (show l.length < (PrefixTree.prepend (l ++ [sw]) t1).label.length ∧
        l.length < (PrefixTree.prepend (l ++ [!sw]) t2).label.length by rw [hl1, hl2]; simp)] at hrun
      rw [← hq1] at hfirst
      rw [← hq2] at hsecond
      have hfirst := Scans.of_prepend f |>.1 hfirst
      have hsecond := Scans.of_prepend f |>.2 hsecond
      rw [← List.append_assoc] at hfirst hsecond
      cases sw with
      | false =>
        exact Scans.sides f (PrefixTree.splits_prepend_false l t1) (PrefixTree.splits_prepend_true l t2) hfirst hsecond
          hrun
      | true =>
        exact Scans.sides f (PrefixTree.splits_prepend_true l t1) (PrefixTree.splits_prepend_false l t2) hsecond hfirst
          hrun

end TonWallet.Vm.Dict
