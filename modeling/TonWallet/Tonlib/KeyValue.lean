/-
The store of the wallet library: a directory with one file for each key. A file is replaced by writing a new one beside it
and renaming that, so a call that fails leaves the old file. The files of private keys are named by hexadecimal digits, and
those of block states have an extension.
-/
import Mathlib.Data.List.GetD
import Mathlib.Data.List.TakeWhile
import TonWallet.Lib.Entries
import TonWallet.Tonlib.SimpleEncryption

namespace TonWallet.Tonlib

open Lib TonWallet.Td

/-! ## Names -/

/-- `td::buffer_to_hex`, the low digit of each byte first. -/
def bufferToHex (buffer : Bytes) : String :=
  String.ofList (buffer.flatMap fun c => [hexDigit (c.toNat % 16), hexDigit (c.toNat / 16)])
where
  hexDigit (n : Nat) : Char := "0123456789ABCDEF".toList.getD n '0'

/-- `PathView::is_slash`. -/
def isSlash (c : Char) : Bool := c == '/' || c == '\\'

/-- `PathView::extension`: what follows the last dot of the file's name, unless that is its first character. -/
def extension (path : String) : List Char :=
  let name := path.toList.reverse.takeWhile (!isSlash ·)
  let ext := name.takeWhile (· ≠ '.')
  if ext.length + 1 < name.length then ext.reverse else []

/-- The file of the directory that `to_file_path` leads to: slashes before a name count as one. -/
def toFile (key : String) : String := String.ofList (key.toList.dropWhile (· == '/'))

/-- The name of the file that `atomic_write_file` writes first. -/
def pathTmp (file : String) : String := file ++ ".tmp"

/-! ## The two kinds of names -/

theorem plain_of_all {s : String} (h : s.toList.all (fun c => c != '.' && !isSlash c) = true) :
    ∀ c ∈ s.toList, c ≠ '.' ∧ isSlash c = false := by
  intro c hc
  simpa using List.all_eq_true.1 h c hc

theorem hexDigit_eq (n : Nat) : bufferToHex.hexDigit n =
    ['0', '1', '2', '3', '4', '5', '6', '7', '8', '9', 'A', 'B', 'C', 'D', 'E', 'F'].getD n '0' := by
  have hdigits : "0123456789ABCDEF".toList =
      ['0', '1', '2', '3', '4', '5', '6', '7', '8', '9', 'A', 'B', 'C', 'D', 'E', 'F'] := rfl
  rw [bufferToHex.hexDigit, hdigits]

/-- Hexadecimal digits are no slashes and no dots. -/
theorem hexDigit_plain (n : Nat) : bufferToHex.hexDigit n ≠ '.' ∧ isSlash (bufferToHex.hexDigit n) = false := by
  have hmem : bufferToHex.hexDigit n ∈ "0123456789ABCDEF".toList := by
    unfold bufferToHex.hexDigit
    by_cases h : n < "0123456789ABCDEF".toList.length
    · rw [List.getD_eq_getElem _ _ h]
      exact List.getElem_mem h
    · rw [List.getD_eq_default _ _ (not_lt.1 h)]
      decide
  exact plain_of_all (by decide) _ hmem

theorem toList_bufferToHex (buffer : Bytes) : ∀ c ∈ (bufferToHex buffer).toList, c ≠ '.' ∧ isSlash c = false := by
  intro c hc
  rw [bufferToHex, String.toList_ofList, List.mem_flatMap] at hc
  obtain ⟨b, -, hc⟩ := hc
  simp only [List.mem_cons, List.not_mem_nil, or_false] at hc
  rcases hc with rfl | rfl <;> exact hexDigit_plain _

/-- The part of a path that the extension is taken from. -/
theorem takeWhile_reverse_append {xs : List Char} (h : ∀ c ∈ xs, isSlash c = false) (ys : List Char) :
    (ys ++ xs).reverse.takeWhile (!isSlash ·) = xs.reverse ++ ys.reverse.takeWhile (!isSlash ·) := by
  rw [List.reverse_append, List.takeWhile_append_of_pos]
  intro c hc
  rw [h c (List.mem_reverse.1 hc)]
  rfl

/-- A path whose last characters are a dot and an extension; or it is the name of a file that starts with the dot. -/
theorem extension_append {path ext : String} (h : ∀ c ∈ ext.toList, c ≠ '.' ∧ isSlash c = false) :
    extension (path ++ "." ++ ext) =
      if path.toList.reverse.takeWhile (!isSlash ·) = [] then [] else ext.toList := by
  have hdot : ∀ c ∈ '.' :: ext.toList, isSlash c = false := by
    intro c hc
    rcases List.mem_cons.1 hc with rfl | hc
    · rfl
    · exact (h c hc).2
  have hpath : (path ++ "." ++ ext).toList = path.toList ++ ('.' :: ext.toList) := by simp
  have hname := takeWhile_reverse_append hdot path.toList
  have htake : (ext.toList.reverse ++ '.' :: path.toList.reverse.takeWhile (!isSlash ·)).takeWhile (· ≠ '.') =
      ext.toList.reverse := by
    rw [List.takeWhile_append_of_pos]
    · simp
    · intro c hc
      simpa using (h c (List.mem_reverse.1 hc)).1
  unfold extension
  simp only [hpath, hname, List.reverse_cons, List.append_assoc, List.singleton_append, htake, List.reverse_reverse]
  by_cases hnil : path.toList.reverse.takeWhile (!isSlash ·) = []
  · rw [if_neg (by simp [hnil]), if_pos hnil]
  · have hpos : 0 < (path.toList.reverse.takeWhile (!isSlash ·)).length := List.length_pos_iff.2 hnil
    rw [if_pos (by simp only [List.length_append, List.length_cons]; omega), if_neg hnil]

/-- A name without dots has no extension. -/
theorem extension_eq_nil {path : String} (h : ∀ c ∈ path.toList, c ≠ '.') : extension path = [] := by
  unfold extension
  have htake : (path.toList.reverse.takeWhile (!isSlash ·)).takeWhile (· ≠ '.') =
      path.toList.reverse.takeWhile (!isSlash ·) := by
    rw [List.takeWhile_eq_self_iff]
    intro c hc
    simpa using h c (List.mem_reverse.1 ((List.takeWhile_sublist _).subset hc))
  simp only [htake]
  rw [if_neg (by omega)]

/-- The slashes before a name do not change its extension. -/
theorem extension_toFile (key : String) : extension (toFile key) = extension key := by
  have hslashes : (key.toList.takeWhile (· == '/')).reverse.takeWhile (!isSlash ·) = [] := by
    rw [List.takeWhile_eq_nil_iff]
    intro hpos
    have hmem := List.mem_reverse.1 (List.getElem_mem hpos)
    have hslash := List.mem_takeWhile_imp hmem
    rw [List.get_eq_getElem, beq_iff_eq.1 hslash]
    decide
  have hname : key.toList.reverse.takeWhile (!isSlash ·) =
      (key.toList.dropWhile (· == '/')).reverse.takeWhile (!isSlash ·) := by
    conv_lhs => rw [← List.takeWhile_append_dropWhile (p := (· == '/')) (l := key.toList), List.reverse_append]
    rw [List.takeWhile_append, hslashes, List.append_nil]
    split
    · rename_i hall
      exact ((List.takeWhile_prefix _).eq_of_length hall).symm
    · rfl
  unfold extension
  rw [toFile, String.toList_ofList, hname]

@[simp] theorem toFile_bufferToHex (buffer : Bytes) : toFile (bufferToHex buffer) = bufferToHex buffer := by
  have hdrop : (bufferToHex buffer).toList.dropWhile (· == '/') = (bufferToHex buffer).toList := by
    rw [List.dropWhile_eq_self_iff]
    intro hpos hslash
    have hplain := (toList_bufferToHex buffer _ (List.getElem_mem hpos)).2
    rw [beq_iff_eq.1 hslash] at hplain
    cases hplain
  rw [toFile, hdrop, String.ofList_toList]

@[simp] theorem toFile_slash (file : String) : toFile ("/" ++ file) = toFile file := by
  simp [toFile]

/-! ## Calls of the store -/

/-- The files of the directory, and what the system says of one that is not there. -/
structure KeyValue where
  entries : Entries Bytes := []
  unknownKey : Status
  deriving DecidableEq

/-- How `atomic_write_file` fails: before the new file is complete, or when it is renamed. -/
inductive SetFault
  | write (status : Status) (written : Option Bytes)
  | rename (status : Status)

namespace KeyValue

/-- The content of a file. -/
def data (kv : KeyValue) (file : String) : Option Bytes := kv.entries.get file

/-- `get`, which may also fail for a file that is there. -/
def get (kv : KeyValue) (key : String) (fault : Option Status) : Except Status Bytes :=
  match fault with
  | some status => .error status
  | none => (kv.data (toFile key)).elim (.error kv.unknownKey) .ok

/-- `set`. -/
def set (kv : KeyValue) (key : String) (value : Bytes) (fault : Option SetFault) : Except Status Unit × KeyValue :=
  let path := toFile key
  match fault with
  | some (.write status written) => (.error status, { kv with entries := kv.entries.putOpt (pathTmp path) written })
  | some (.rename status) => (.error status, { kv with entries := kv.entries.put (pathTmp path) value })
  | none => (.ok (), { kv with entries := (kv.entries.remove (pathTmp path)).put path value })

/-- `erase`. -/
def erase (kv : KeyValue) (key : String) (fault : Option Status) : Except Status Unit × KeyValue :=
  match fault with
  | some status => (.error status, kv)
  | none =>
    match kv.data (toFile key) with
    | none => (.error kv.unknownKey, kv)
    | some _ => (.ok (), { kv with entries := kv.entries.remove (toFile key) })

/-- `foreach_key`: the paths of the files that the walk reaches, without that of the directory. -/
def foreachKey (kv : KeyValue) (reached : String → Bool) : List String :=
  ((kv.entries.map (·.1)).dedup.filter reached).map ("/" ++ ·)

/-! ## What a call changes -/

theorem get_eq_ok {kv : KeyValue} {key : String} {fault : Option Status} {value : Bytes} :
    kv.get key fault = .ok value ↔ fault = none ∧ kv.data (toFile key) = some value := by
  cases fault with
  | some status => simp [get]
  | none => cases h : kv.data (toFile key) <;> simp [get, h]

/-- A replaced file has the new content, and one that was not replaced has the old one. -/
theorem set_data (kv : KeyValue) (key : String) (value : Bytes) (fault : Option SetFault) (file : String)
    (h : file ≠ pathTmp (toFile key)) : (kv.set key value fault).2.data file =
      if file = toFile key ∧ fault = none then some value else kv.data file := by
  rcases fault with _ | ⟨status, written⟩ | status
  · by_cases hfile : toFile key = file
    · simp [set, data, hfile]
    · simp [set, data, hfile, h.symm, Ne.symm hfile]
  · simp [set, data, h.symm]
  · simp [set, data, h.symm]

theorem set_eq_ok {kv : KeyValue} {key : String} {value : Bytes} {fault : Option SetFault} :
    (kv.set key value fault).1 = .ok () ↔ fault = none := by
  rcases fault with _ | ⟨status, written⟩ | status <;> simp [set]

/-- An erased file is gone, and no other file is. -/
theorem erase_data (kv : KeyValue) (key : String) (fault : Option Status) (file : String) :
    (kv.erase key fault).2.data file = if file = toFile key ∧ fault = none then none else kv.data file := by
  rcases fault with _ | status
  · unfold erase
    cases hdata : kv.data (toFile key) with
    | none =>
      by_cases hfile : file = toFile key
      · simp [hfile, hdata]
      · simp [hfile]
    | some value =>
      by_cases hfile : toFile key = file
      · simp [data, hfile]
      · simp [data, hfile, Ne.symm hfile]
  · simp [erase]

theorem erase_eq_ok {kv : KeyValue} {key : String} {fault : Option Status} :
    (kv.erase key fault).1 = .ok () ↔ fault = none ∧ kv.data (toFile key) ≠ none := by
  rcases fault with _ | status
  · cases hdata : kv.data (toFile key) <;> simp [erase, hdata]
  · simp [erase]

end KeyValue

end TonWallet.Tonlib
