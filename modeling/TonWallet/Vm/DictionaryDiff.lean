/-
`scan_diff`: a function is told where two dictionaries of one kind differ. A plain dictionary is compared by its values,
and an augmented one by its values with the extras in front of them.
-/
import TonWallet.Vm.AugmentedMap
import TonWallet.Vm.Dict.ScanDiff
import TonWallet.Vm.DictionaryCombine

namespace TonWallet.Vm

open Lib TonWallet.Td CellBuilder Dict

namespace DictionaryBase

/-- The cells of two dictionaries have different hashes, unless they are the same. -/
def NoCollisions [Digest] (d1 d2 : DictionaryBase) : Prop :=
  ∀ c1 ∈ d1.rootCell, ∀ c2 ∈ d2.rootCell, NoCollision c1 c2

end DictionaryBase

/-! ## The kinds of dictionaries -/

namespace Dictionary

/-- A plain dictionary checks nothing but that a fork has its branches. -/
def scanOps : ScanOps where
  labelMode := .chkAll
  checkLeaf _ _ := true
  checkForkRaw p _ := .ok (decide (2 ≤ p.refs.length))

/-- Every plain dictionary passes the checks. -/
theorem shape_of_parses [Digest] {canon : Prop} {n : Nat} {t : PrefixTree Slice} {c : Cell} (h : Parses canon n t c)
    (q : List Bool) (checked : Bool) : Shape scanOps.labelMode (scanOps.rules checked) q n t c := by
  induction h generalizing q with
  | leaf _ hlabel hreads hn _ => exact .leaf hlabel hreads hn fun _ => rfl
  | fork _ hlabel hreads hn _ _ _ iha ihb =>
    exact .fork hlabel (e := ⟨[], []⟩) hreads hn (fun _ => rfl) (iha _) (ihb _)

theorem shaped_of_parsed [Digest] {canon : Prop} {d : DictionaryBase} {m : KeyMap Slice} (h : d.Parsed canon m)
    (checked : Bool) : d.Shaped scanOps.labelMode (scanOps.rules checked) m := by
  obtain ⟨t, hroot, hget⟩ := h
  refine ⟨t, ?_, hget⟩
  cases t with
  | none => exact hroot
  | some t =>
    obtain ⟨c, hc, ht⟩ := hroot
    exact ⟨c, hc, shape_of_parses ht [] checked⟩

end Dictionary

namespace AugmentedDictionary

variable (aug : AugmentationData) [Digest]

/-- An augmented dictionary checks the extra of every node. -/
def scanOps : ScanOps where
  labelMode := .chkSize
  checkLeaf p _ := checkLeaf aug p
  checkForkRaw p n := match p.refs with
    | c1 :: c2 :: refs => checkFork aug ⟨p.bits, refs⟩ (some c1) (some c2) n
    | _ => .ok false

variable {aug}

/-- What is stored passes the checks, and stands at the leaves behind its extra. -/
theorem shape_of_store {t : PrefixTree Slice} {n : Nat} {c : Cell} (ht : t.Keyed n)
    (hs : store (layout aug) n t = some c) (q : List Bool) (checked : Bool) :
    ∃ t' : PrefixTree Slice, Shape (scanOps aug).labelMode ((scanOps aug).rules checked) q n t' c ∧
      ∀ k, t'.get k = (t.get k).bind (layout aug).leaf := by
  induction t generalizing n c q with
  | leaf l v =>
    obtain ⟨label, p, hlabel, hreads, hbelow⟩ := Dict.ofCell_store accepts ht hs
    have hp : (layout aug).leaf v = some p := hbelow
    refine ⟨.leaf l p, .leaf hlabel hreads ht fun _ => checkLeaf_store hs hp, fun k => ?_⟩
    simp only [PrefixTree.get]
    split
    · exact hp.symm
    · rfl
  | fork l a b iha ihb =>
    obtain ⟨label, p, hlabel, hreads, hbelow⟩ := Dict.ofCell_store accepts ht hs
    obtain ⟨ca, cb, e, hca, hcb, he, rfl⟩ := below_fork_eq_some hbelow
    obtain ⟨m, hm, ha, hb⟩ := ht
    rw [PrefixTree.label, show n - l.length - 1 = m by omega] at hca hcb
    obtain ⟨a', ha', hgeta⟩ := iha ha hca (q ++ l ++ [false])
    obtain ⟨b', hb', hgetb⟩ := ihb hb hcb (q ++ l ++ [true])
    refine ⟨.fork l a' b', .fork hlabel hreads hm (fun _ => checkFork_store hs ha hb hbelow hca hcb he) ha' hb', fun k => ?_⟩
    simp only [PrefixTree.get]
    split
    · exact hgeta _
    · exact hgetb _
    · rfl

/-- The dictionary of a map is read as the map of its values behind their extras. -/
theorem shaped_of_stands {d : DictionaryBase} {m : KeyMap Slice} (h : d.Stands (layout aug) m) (checked : Bool) :
    d.Shaped (scanOps aug).labelMode ((scanOps aug).rules checked) fun k => (m k).bind (layout aug).leaf := by
  obtain ⟨t, hkeyed, hroot, hget⟩ := h
  cases t with
  | none =>
    refine ⟨none, (Option.some.inj hroot).symm, fun k => ?_⟩
    change none = (m k).bind _
    rw [← hget]
    rfl
  | some t =>
    obtain ⟨c, hc, hroot⟩ := store?_some hroot
    obtain ⟨t', ht', hget'⟩ := shape_of_store (hkeyed t rfl) hc [] checked
    refine ⟨some t', ⟨c, hroot, ht'⟩, fun k => ?_⟩
    change t'.get k = (m k).bind _
    rw [← hget]
    exact hget' k

end AugmentedDictionary

/-! ## Comparing -/

namespace DictionaryBase

section

variable {σ : Type} [Digest]

/-- `scan_diff`. -/
def scanDiff (ops : ScanOps) (d dict2 : DictionaryBase) (diffFunc : DiffFunc σ) (checkAugm : Nat) (st : σ) :
    Result (Bool × σ) :=
  if d.keyBits ≠ dict2.keyBits then .error (.vmError "cannot compare dictionaries with different key lengths")
  else dictScanDiff ops diffFunc checkAugm d.rootCell dict2.rootCell [] d.keyBits 0 0 st

variable {ops : ScanOps} {d1 d2 : DictionaryBase} {m1 m2 : KeyMap Slice}

/-- The function is told every key whose values differ, once and in order, until it says no. -/
theorem scanDiff_visits (diffFunc : DiffFunc σ) (checkAugm : Nat) (hbits : d1.keyBits = d2.keyBits)
    (h1 : d1.Shaped ops.labelMode (ops.rules (checkAugm.testBit 0)) m1)
    (h2 : d2.Shaped ops.labelMode (ops.rules (checkAugm.testBit 1)) m2) (hcol : NoCollisions d1 d2) :
    ∃ ds, DiffsOf [] m1 m2 ds ∧ ∀ st, scanDiff ops d1 d2 diffFunc checkAugm st = .ok (visitAll diffFunc ds st) := by
  have hdef : ∀ st, scanDiff ops d1 d2 diffFunc checkAugm st =
      dictScanDiff ops diffFunc checkAugm d1.rootCell d2.rootCell [] d1.keyBits 0 0 st := fun st =>
    if_neg (not_not.2 hbits)
  simp only [hdef]
  rcases h1.cases with ⟨hroot1, rfl⟩ | ⟨t1, c1, hroot1, ht1, rfl⟩
  · simp only [hroot1, dictScanDiff]
    rcases h2.cases with ⟨hroot2, rfl⟩ | ⟨t2, c2, hroot2, ht2, rfl⟩
    · refine ⟨[], .same [] _, fun st => ?_⟩
      rw [hroot2, dictScanSecond, dictScanOnly]
      rfl
    · rw [hroot2, hbits]
      exact scans_second ht2
  · rcases h2.cases with ⟨hroot2, rfl⟩ | ⟨t2, c2, hroot2, ht2, rfl⟩
    · simp only [hroot1, hroot2, dictScanDiff]
      exact scans_first ht1
    · rw [hroot1, hroot2]
      rw [← hbits] at ht2
      have hscan := @scans_dictScanDiff σ _ ops diffFunc checkAugm d1.keyBits t1 t2 c1 c2 [] [] [] [] []
        (by rw [PrefixTree.prepend_nil]; exact ht1) (by rw [PrefixTree.prepend_nil]; exact ht2) rfl rfl
        (hcol c1 hroot1 c2 hroot2)
      exact hscan

end

namespace Sample

abbrev digest : Digest := Dictionary.Sample.digest

/-- A value of one bit is kept for the key `10`. -/
def leafCell (b : Bool) : Cell := .mk false [false, true, true, false, true, false, b] []

theorem keyBits_le : 2 ≤ maxKeyBits := by decide

def dict (b : Bool) : DictionaryBase := ⟨2, some (leafCell b), keyBits_le⟩

def tree (b : Bool) : PrefixTree Slice := .leaf [true, false] ⟨[b], []⟩

/-- Counts what it is told. -/
def count : DiffFunc Nat := fun _ st => (true, st + 1)

theorem shaped (b checked : Bool) :
    (dict b).Shaped Dictionary.scanOps.labelMode (Dictionary.scanOps.rules checked) (tree b).get := by
  refine ⟨some (tree b), ⟨leafCell b, rfl, ?_⟩, fun k => rfl⟩
  have hlabel : LabelParser.ofCell (some (leafCell b)) 2 .chkAll = .ok ⟨⟨[true, false] ++ [b], []⟩, none, 2⟩ := by
    cases b <;> rfl
  exact .leaf hlabel .any rfl fun _ => rfl

theorem noCollisions : @NoCollisions digest (dict true) (dict false) := by
  intro c1 h1 c2 h2 d1 d2 hd1 hd2 heq
  cases h1
  cases h2
  obtain rfl := hd1.eq_of_refs rfl
  obtain rfl := hd2.eq_of_refs rfl
  exact absurd heq (by decide +kernel)

/-- Two values of one key are told. -/
theorem scanDiff_visits_values : ∃ ds, DiffsOf [] (tree true).get (tree false).get ds ∧
    ∀ st, @scanDiff Nat digest Dictionary.scanOps (dict true) (dict false) count 0 st = .ok (visitAll count ds st) :=
  @scanDiff_visits Nat digest Dictionary.scanOps (dict true) (dict false) _ _ count 0 rfl (shaped true _)
    (shaped false _) noCollisions

end Sample

end DictionaryBase

end TonWallet.Vm
