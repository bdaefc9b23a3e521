/-
`td::Status` and the ways a call of the C++ code can end: a value, an error status, a thrown
virtual-machine exception (which `TRY_VM` turns into a status), a thrown cell writer exception
(which nothing catches), or a failed `CHECK` or `.ensure()`, which aborts the process.
-/
import Mathlib.Init

namespace TonWallet.Td

/-- An error `td::Status`: its code and message. -/
structure Status where
  code : Int
  message : String
  deriving DecidableEq, Repr

namespace Status

/-- `td::Status::Error(message)`. -/
def error (message : String) : Status := ⟨0, message⟩

/-- `Status::to_string` of a general error. -/
def toStr (s : Status) : String := "[Error : " ++ toString s.code ++ " : " ++ s.message ++ "]"

/-- `Status::move_as_error_suffix`. -/
def withSuffix (s : Status) (suffix : String) : Status := ⟨s.code, s.message ++ " " ++ suffix⟩

/-- `Status::move_as_error_prefix(status)`: the code of the prefix, both messages. -/
def withPrefix (s pre : Status) : Status := pre.withSuffix s.message

end Status

/-- How a call can fail. -/
inductive Fail
  | status (s : Status)
  | vmError (msg : String)
  | vmVirtError
  | cellWriteError
  | check (what : String)
  deriving DecidableEq, Repr

/-- `td::Result<T>` of a function that may also throw or abort. -/
abbrev Result (α : Type) := Except Fail α

/-- Whether the failure ends the process when no caller catches virtual-machine exceptions. -/
def Fail.aborts : Fail → Bool
  | .status _ => false
  | _ => true

/-- Return an error status with the default code. -/
def fail {α : Type} (message : String) : Result α := .error (.status (.error message))

/-- Catch the exceptions of the virtual machine and return them as statuses, each with its own text. -/
def catchVm {α : Type} (vm virt : String) : Result α → Result α
  | .error (.vmError msg) => fail (vm ++ msg)
  | .error .vmVirtError => fail (virt ++ "prunned branch")
  | r => r

@[simp] theorem catchVm_ok_iff {α : Type} {vm virt : String} {r : Result α} {a : α} :
    catchVm vm virt r = .ok a ↔ r = .ok a := by
  unfold catchVm fail; split <;> simp

/-- `TRY_VM`. -/
def tryVm {α : Type} : Result α → Result α :=
  catchVm "Got a vm exception: " "Got a vm virtualization exception: "

/-- Report a returned error under a new text. -/
def renameStatus {α : Type} (text : Status → String) : Result α → Result α
  | .error (.status s) => fail (text s)
  | r => r

@[simp] theorem renameStatus_ok_iff {α : Type} {text : Status → String} {r : Result α} {a : α} :
    renameStatus text r = .ok a ↔ r = .ok a := by
  unfold renameStatus fail; split <;> simp

/-- `TRY_RESULT_PREFIX`: put a status before the message of a returned error. -/
def tryPrefix {α : Type} (pre : Status) : Result α → Result α
  | .error (.status s) => .error (.status (s.withPrefix pre))
  | r => r

@[simp] theorem tryPrefix_ok_iff {α : Type} {pre : Status} {r : Result α} {a : α} :
    tryPrefix pre r = .ok a ↔ r = .ok a := by
  unfold tryPrefix; split <;> simp

/-- `if (c) return Status::Error(message)`. -/
def failIf (c : Prop) [Decidable c] (message : String) : Result Unit := if c then fail message else .ok ()

@[simp] theorem failIf_ok_iff {c : Prop} [Decidable c] {message : String} {u : Unit} :
    failIf c message = .ok u ↔ ¬ c := by
  unfold failIf fail; split <;> simp_all

/-- `CHECK(c)`. -/
def check (c : Prop) [Decidable c] (what : String) : Result Unit := if c then .ok () else .error (.check what)

@[simp] theorem check_ok_iff {c : Prop} [Decidable c] {what : String} {u : Unit} : check c what = .ok u ↔ c := by
  unfold check; split <;> simp_all

/-- A call that may give no value, where no value is an error. -/
def orFail {α : Type} (r : Result (Option α)) (message : String) : Result α :=
  r >>= fun
    | some a => .ok a
    | none => fail message

@[simp] theorem orFail_ok_iff {α : Type} {r : Result (Option α)} {message : String} {a : α} :
    orFail r message = .ok a ↔ r = .ok (some a) := by
  rcases r with _ | _ | _ <;> simp [orFail, fail, bind, Except.bind]

/-- `TRY_RESULT` of a call that only returns statuses. -/
def ofStatus {α : Type} : Except Status α → Result α
  | .ok a => .ok a
  | .error s => .error (.status s)

@[simp] theorem ofStatus_ok_iff {α : Type} {r : Except Status α} {a : α} : ofStatus r = .ok a ↔ r = .ok a := by
  cases r <;> simp [ofStatus]

@[simp] theorem fail_ne_ok {α : Type} {message : String} {a : α} : (fail message : Result α) ≠ .ok a := by
  simp [fail]

/-- What a successful sequence of two calls says: both succeeded. -/
theorem bind_ok {α β : Type} {x : Result α} {f : α → Result β} {b : β} (h : x >>= f = .ok b) :
    ∃ a, x = .ok a ∧ f a = .ok b := by
  cases x with
  | error e => cases h
  | ok a => exact ⟨a, rfl, h⟩

/-- What a failed sequence of two calls says: the first failed, or the second. -/
theorem bind_error {α β : Type} {x : Result α} {f : α → Result β} {e : Fail} (h : x >>= f = .error e) :
    x = .error e ∨ ∃ a, x = .ok a ∧ f a = .error e := by
  cases x with
  | error e' =>
    cases h
    exact .inl rfl
  | ok a => exact .inr ⟨a, rfl, h⟩

@[simp] theorem toOption_ok {α : Type} (a : α) : (Except.ok a : Result α).toOption = some a := rfl

@[simp] theorem toOption_pure {α : Type} (a : α) : (pure a : Result α).toOption = some a := rfl

/-- The value of a sequence of two calls, if there is one. -/
theorem toOption_bind {α β : Type} (x : Result α) (f : α → Result β) :
    (x >>= f).toOption = x.toOption.bind fun a => (f a).toOption := by
  cases x <;> rfl

/-! ## The statuses of the wallet library -/

namespace TonlibError

def validateConfig : Status := ⟨500, "VALIDATE_CONFIG"⟩
def validateZeroState (message : String) : Status := ⟨500, "VALIDATE_ZERO_STATE: " ++ message⟩
def validateBlockProof : Status := ⟨500, "VALIDATE_BLOCK_PROOF"⟩
def cancelled : Status := ⟨500, "CANCELLED"⟩
def invalidQueryId : Status := ⟨400, "INVALID_QUERY_ID"⟩
def invalidAccountAddress : Status := ⟨400, "INVALID_ACCOUNT_ADDRESS"⟩
def internal (message : String) : Status := ⟨500, "INTERNAL: " ++ message⟩
def liteServerNetwork : Status := ⟨500, "LITE_SERVER_NETWORK"⟩

end TonlibError

end TonWallet.Td
