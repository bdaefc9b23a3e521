/-
What the cache is written with: `android.util.Base64` in its default form, and `SharedPreferences`, a map
from strings to typed values whose getters throw when the value has another type. A call that throws an
exception gives no value.
-/
import TonWallet.App.TonApi
import TonWallet.Lib.Base64
import TonWallet.Lib.Entries

namespace TonWallet.App

open Lib

/-! ## Base64 -/

namespace Base64

open Lib.Base64 (standard digits ofDigits)

/-- The fill characters after `n` symbols. -/
def padding (n : Nat) : List Char := if n % 4 = 2 then ['=', '='] else if n % 4 = 3 then ['='] else []

/-- A line break after every `w` characters and at the end of the last line; `col` characters of the
current line are written. -/
def breakLines (w : Nat) : Nat → List Char → List Char
  | col, [] => if col = 0 then [] else ['\n']
  | col, c :: cs => if col + 1 = w then c :: '\n' :: breakLines w 0 cs else c :: breakLines w (col + 1) cs

/-- `Base64.encodeToString(input, Base64.DEFAULT)`. -/
def encodeToString (input : Bytes) : String :=
  let symbols := standard.encode input
  String.ofList (breakLines 76 0 (symbols ++ padding symbols.length))

def isSymbol (c : Char) : Bool := decide (c ∈ standard.symbols)

/-- `Base64.decode(str, Base64.DEFAULT)`: other characters are skipped; wrong padding is an exception. -/
def decode (str : String) : Option Bytes :=
  let cs := str.toList.filter fun c => isSymbol c || c == '='
  let symbols := cs.takeWhile isSymbol
  let rest := cs.dropWhile isSymbol
  if rest = [] ∨ rest = padding symbols.length then standard.decode symbols else none

theorem filter_breakLines {p : Char → Bool} (hp : p '\n' = false) (w col : Nat) {cs : List Char}
    (h : ∀ c ∈ cs, p c = true) : (breakLines w col cs).filter p = cs := by
  induction cs generalizing col with
  | nil =>
    unfold breakLines
    split <;> simp [hp]
  | cons c cs ih =>
    have hc := h c (by simp)
    have hcs := fun col => ih col fun d hd => h d (by simp [hd])
    unfold breakLines
    split
    · simp [hc, hp, hcs]
    · simp [hc, hcs]

theorem not_isSymbol_of_mem_padding {n : Nat} : ∀ c ∈ padding n, isSymbol c = false ∧ c = '=' := by
  have he : isSymbol '=' = false := by decide
  intro c hc
  unfold padding at hc
  split at hc
  · simp at hc; exact ⟨hc ▸ he, hc⟩
  · split at hc
    · simp at hc; exact ⟨hc ▸ he, hc⟩
    · simp at hc

/-- What is encoded is decoded again. -/
theorem decode_encodeToString (input : Bytes) : decode (encodeToString input) = some input := by
  have hsym : ∀ c ∈ standard.encode input, isSymbol c = true := fun c hc =>
    decide_eq_true (standard.encode_mem c hc)
  have hpad := fun c hc => not_isSymbol_of_mem_padding (n := (standard.encode input).length) c hc
  have hfilter : (encodeToString input).toList.filter (fun c => isSymbol c || c == '=') =
      standard.encode input ++ padding (standard.encode input).length := by
    rw [encodeToString, String.toList_ofList]
    refine filter_breakLines (by decide) 76 0 fun c hc => ?_
    rcases List.mem_append.1 hc with hc | hc
    · simp [hsym c hc]
    · simp [(hpad c hc).2]
  have htake : (standard.encode input ++ padding (standard.encode input).length).takeWhile isSymbol =
      standard.encode input := by
    rw [List.takeWhile_append_of_pos hsym]
    cases hp : padding (standard.encode input).length with
    | nil => simp
    | cons c cs => simp [(hpad c (by simp [hp])).1]
  have hdrop : (standard.encode input ++ padding (standard.encode input).length).dropWhile isSymbol =
      padding (standard.encode input).length := by
    rw [List.dropWhile_append_of_pos hsym]
    cases hp : padding (standard.encode input).length with
    | nil => simp
    | cons c cs => simp [(hpad c (by simp [hp])).1]
  unfold decode
  simp only [hfilter, htake, hdrop, or_true, if_true]
  exact standard.decode_encode input

end Base64

/-! ## Preferences -/

inductive PrefValue
  | boolean (v : Bool)
  | int (v : Int)
  | long (v : Int)
  | string (v : String)
  deriving DecidableEq, Repr

namespace PrefValue

/-- The value of a byte array. -/
def bytes (b : Bytes) : PrefValue := .string (Base64.encodeToString b)

/-! What a getter gives for the value found; another type is an exception. -/

def asBoolean (default : Bool) : Option PrefValue → Option Bool
  | none => some default
  | some (.boolean v) => some v
  | some _ => none

def asInt (default : Int) : Option PrefValue → Option Int
  | none => some default
  | some (.int v) => some v
  | some _ => none

def asLong (default : Int) : Option PrefValue → Option Int
  | none => some default
  | some (.long v) => some v
  | some _ => none

def asString : Option PrefValue → Option (Option String)
  | none => some none
  | some (.string v) => some (some v)
  | some _ => none

def asBytes (v : Option PrefValue) : Option Bytes := asString v >>= fun
  | none => none
  | some s => Base64.decode s

@[simp] theorem asBoolean_boolean (default v : Bool) : asBoolean default (some (.boolean v)) = some v := rfl

@[simp] theorem asInt_int (default v : Int) : asInt default (some (.int v)) = some v := rfl

@[simp] theorem asLong_long (default v : Int) : asLong default (some (.long v)) = some v := rfl

@[simp] theorem asString_none : asString none = some none := rfl

@[simp] theorem asString_string (v : String) : asString (some (.string v)) = some (some v) := rfl

@[simp] theorem asString_map_string (v : Option String) : asString (v.map .string) = some v := by
  cases v <;> rfl

@[simp] theorem asBytes_bytes (b : Bytes) : asBytes (some (.bytes b)) = some b :=
  Base64.decode_encodeToString b

end PrefValue

/-- `SharedPreferences`. -/
abbrev Preferences := Entries PrefValue

namespace Preferences

variable (prefs : Preferences)

def contains (k : String) : Bool := (prefs.get k).isSome
def getBoolean (k : String) (default : Bool) : Option Bool := PrefValue.asBoolean default (prefs.get k)
def getInt (k : String) (default : Int) : Option Int := PrefValue.asInt default (prefs.get k)
def getLong (k : String) (default : Int) : Option Int := PrefValue.asLong default (prefs.get k)

/-- `getString(k, null)`. -/
def getString (k : String) : Option (Option String) := PrefValue.asString (prefs.get k)

/-- `Base64.decode(getString(k, null), Base64.DEFAULT)`, an exception when there is no string. -/
def getBytes (k : String) : Option Bytes := PrefValue.asBytes (prefs.get k)

end Preferences

end TonWallet.App
