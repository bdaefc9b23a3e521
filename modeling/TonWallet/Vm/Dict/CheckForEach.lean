/-
A walk through a dictionary (`check_for_each`): a function with a state of its own is called at every leaf, in the order
of the keys, until it refuses one.
-/
import TonWallet.Vm.Dict.Parse
import TonWallet.Vm.DictionaryMap

namespace TonWallet.Vm

open Lib TonWallet.Td CellBuilder

namespace Dict

variable {σ : Type}

/-- `foreach_func_t`, with what it changes as a state. -/
abbrev ForeachFunc (σ : Type) := List Bool → Slice → σ → Bool × σ

/-- `dict_check_for_each`; `key`: the bits of the key buffer in front of the `n` bits that are left. -/
def dictCheckForEach (mode : LabelMode) (foreachFunc : ForeachFunc σ) (dict : Option Cell) (key : List Bool) (n : Nat)
    (invertFirst : Bool) (s : σ) : Result (Bool × σ) :=
  match dict with
  | none => .ok (true, s)
  | some cell => do
    let label ← LabelParser.ofCell (some cell) n mode
    if _hn : label.lBits < n then
      let m := n - label.lBits - 1
      -- only the first bit of the keys is a sign
      let invertFirst := label.lBits == 0 && invertFirst
      let (next, s) ← dictCheckForEach mode foreachFunc label.remainder.refs[invertFirst.toNat]?
        (key ++ label.bits ++ [invertFirst]) m false s
      if !next then return (false, s)
      else
        dictCheckForEach mode foreachFunc label.remainder.refs[(!invertFirst).toNat]?
          (key ++ label.bits ++ [!invertFirst]) m false s
    else return foreachFunc (key ++ label.bits) label.payload s
termination_by n

/-- The function is called with one entry after the other until it refuses one. -/
def checkEntries (foreachFunc : ForeachFunc σ) : List (List Bool × Slice) → σ → Bool × σ
  | [], s => (true, s)
  | (k, v) :: es, s => match foreachFunc k v s with
    | (true, s) => checkEntries foreachFunc es s
    | (false, s) => (false, s)

theorem checkEntries_append (foreachFunc : ForeachFunc σ) (es fs : List (List Bool × Slice)) (s : σ) :
    checkEntries foreachFunc (es ++ fs) s = match checkEntries foreachFunc es s with
      | (true, s) => checkEntries foreachFunc fs s
      | (false, s) => (false, s) := by
  induction es generalizing s with
  | nil => rfl
  | cons e es ih =>
    obtain ⟨k, v⟩ := e
    rw [List.cons_append, checkEntries, checkEntries]
    cases foreachFunc k v s with
    | mk next s =>
      cases next with
      | true => exact ih s
      | false => rfl

/-- The walk shows the entries of a parsed tree in the order of their keys. -/
theorem dictCheckForEach_parses [Digest] {canon : Prop} {n : Nat} {t : PrefixTree Slice} {c : Cell}
    (h : Parses canon n t c) (foreachFunc : ForeachFunc σ) (q : List Bool) (s : σ) :
    dictCheckForEach .chkAll foreachFunc (some c) q n false s = .ok (checkEntries foreachFunc (t.entries q) s) := by
  induction h generalizing q s with
  | @leaf n c label l v _ hlabel hreads hn _ =>
    have hnot : ¬label.lBits < n := by
      rw [hreads.lBits_eq]
      omega
    rw [dictCheckForEach, hlabel]
    simp only [bind, Except.bind, dif_neg hnot, hreads.bits_eq, hreads.payload_eq, PrefixTree.entries, checkEntries]
    rcases foreachFunc (q ++ l) v s with ⟨_ | _, s⟩ <;> rfl
  | @fork n m c ca cb label l a b _ hlabel hreads hn _ _ _ iha ihb =>
    have hlt : label.lBits < n := by
      rw [hreads.lBits_eq]
      omega
    have hm : n - label.lBits - 1 = m := by
      rw [hreads.lBits_eq]
      omega
    rw [dictCheckForEach, hlabel]
    simp only [bind, Except.bind, dif_pos hlt, hm, hreads.bits_eq, hreads.refs_eq, Bool.and_false, Bool.toNat_false,
      Bool.not_false, Bool.toNat_true, List.getElem?_cons_zero, List.getElem?_cons_succ, iha, PrefixTree.entries,
      checkEntries_append]
    rcases checkEntries foreachFunc (a.entries (q ++ l ++ [false])) s with ⟨_ | _, s⟩
    · rfl
    · exact ihb _ s

end Dict

namespace DictionaryBase

open Dict

variable {σ : Type}

/-- `check_for_each`, of a dictionary whose labels are checked. -/
def checkForEach (foreachFunc : ForeachFunc σ) (s : σ) (d : DictionaryBase) : Result (Bool × σ) :=
  dictCheckForEach .chkAll foreachFunc d.rootCell [] d.keyBits false s

/-- A dictionary that stands for a map is walked through in the order of its entries. -/
theorem Stands.checkForEach [Digest] {d : DictionaryBase} {m : KeyMap Slice} (h : d.Stands .plain m)
    {es : List (List Bool × Slice)} (hes : EntriesOf m es) (foreachFunc : ForeachFunc σ) (s : σ) :
    d.checkForEach foreachFunc s = .ok (checkEntries foreachFunc es s) := by
  obtain ⟨t, hkeyed, hroot, hget⟩ := h
  have hentries : PrefixTree.entries? [] t = es := (PrefixTree.entriesOf_entries? hget).unique hes
  subst hentries
  unfold DictionaryBase.checkForEach
  cases t with
  | none =>
    have hnone : d.rootCell = none := (Option.some.inj hroot).symm
    rw [hnone, dictCheckForEach]
    rfl
  | some t =>
    obtain ⟨c, hstore, hc⟩ := store?_some hroot
    have hparses : Parses True d.keyBits t c := parses_of_store (hkeyed t rfl) hstore
    rw [hc]
    exact dictCheckForEach_parses hparses foreachFunc [] s

end DictionaryBase

end TonWallet.Vm
