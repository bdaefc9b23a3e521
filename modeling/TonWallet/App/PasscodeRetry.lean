/-
The delays of `WalletPasscodeActivity` after wrong passcodes: the counter and the remaining delay are fields of
`UserConfig`, the delay runs against a clock that starts again when the device does, and a new process knows of them
what was saved.
-/
import TonWallet.App.UserConfig

namespace TonWallet.App

open Lib Lib.Entries

/-- The fields and their saved copies, the passcodes that are being checked, and how long the device has been up. -/
structure PasscodeScreen where
  config : UserConfig
  preferences : Preferences
  checking : Nat := 0
  uptime : Nat

namespace PasscodeScreen

open UserConfig

/-! ## Events -/

inductive Event
  /-- Milliseconds that pass. -/
  | wait (ms : Nat)
  /-- The device starts again, after some milliseconds. -/
  | reboot (ms : Nat)
  /-- The application starts again. -/
  | restart
  | onShow
  | onResume
  | onPause
  /-- `checkRunnable`, every 100 milliseconds while there is a delay. -/
  | checkRunnable
  | processDone (password : String)
  | onWrongPasscode
  | onGoodPasscode

/-- `saveConfig`. -/
def saveConfig (s : PasscodeScreen) (config : UserConfig) : PasscodeScreen :=
  { s with config := config, preferences := config.saveConfig s.preferences }

/-- `checkRetryTextView`. -/
def checkRetryTextView (s : PasscodeScreen) : PasscodeScreen := s.saveConfig (s.config.checkRetryTextView s.uptime)

/-- `onWrongPasscode`. -/
def onWrongPasscode (s : PasscodeScreen) : PasscodeScreen :=
  let s := { s with config := s.config.increaseBadPasscodeTries s.uptime }
  if s.config.tonPasscodeRetryInMs > 0 then s.checkRetryTextView else s

/-- `onGoodPasscode`. -/
def onGoodPasscode (s : PasscodeScreen) : PasscodeScreen := s.saveConfig { s.config with tonBadPasscodeTries := 0 }

/-- Whether `processDone` calls `checkPasscode`. -/
def processDone (s : PasscodeScreen) (password : String) : Bool :=
  if s.config.tonPasscodeRetryInMs > 0 then false
  else if password.length = 0 then false
  else true

/-- A new process, which checks nothing yet. -/
def restart (s : PasscodeScreen) : Option PasscodeScreen :=
  (loadConfig s.preferences).map fun config => { s with config := config, checking := 0 }

/-- An event, with whether it calls `checkPasscode`; `none`: it cannot happen. -/
def step (s : PasscodeScreen) : Event → Option (Bool × PasscodeScreen)
  | .wait ms => some (false, { s with uptime := s.uptime + ms })
  | .reboot _ => s.restart.map fun s => (false, { s with uptime := 0 })
  | .restart => s.restart.map fun s => (false, s)
  | .onShow | .onResume | .checkRunnable => some (false, s.checkRetryTextView)
  | .onPause => some (false, s)
  | .processDone password =>
    if s.processDone password then some (true, { s with checking := s.checking + 1 }) else some (false, s)
  | .onWrongPasscode =>
    if s.checking = 0 then none else some (false, { s with checking := s.checking - 1 }.onWrongPasscode)
  | .onGoodPasscode =>
    if s.checking = 0 then none else some (false, { s with checking := s.checking - 1 }.onGoodPasscode)

/-- The entries so far are saved. -/
def TriesSaved (s : PasscodeScreen) : Prop :=
  s.preferences.getInt "tonBadPasscodeTries" 0 = some s.config.tonBadPasscodeTries

/-- When a new process starts, no entry is forgotten. -/
def StepOk (s : PasscodeScreen) : Event → Prop
  | .reboot _ | .restart => s.TriesSaved
  | _ => True

/-- A step, with whether it calls `checkPasscode`. -/
def Step (s : PasscodeScreen) (e : Event × Bool) (s' : PasscodeScreen) : Prop := s.step e.1 = some (e.2, s')

/-- A step that forgets no entry. -/
def StepWhen (s : PasscodeScreen) (e : Event × Bool) (s' : PasscodeScreen) : Prop := s.StepOk e.1 ∧ Step s e s'

/-! ## The law -/

/-- The time an event takes. -/
def Event.ms : Event → Nat
  | .wait ms | .reboot ms => ms
  | _ => 0

/-- The time that passes in some events. -/
def elapsed (es : List (Event × Bool)) : Nat := es.foldr (fun e ms => e.1.ms + ms) 0

/-- The wrong entries, from the last success on. -/
def wrongs (es : List (Event × Bool)) : Nat := es.foldl (fun n e => match e.1 with
  | .onWrongPasscode => n + 1
  | .onGoodPasscode => 0
  | _ => n) 0

/-- The delay after a wrong entry. -/
def delay (k : Nat) : Nat := 5000 * min (k - 2) 6

/-- Between two successes, a wrong entry is followed by its delay before another passcode is checked. -/
def Delayed (es : List (Event × Bool)) : Prop := ∀ before between after password,
  es = before ++ (.onWrongPasscode, false) :: between ++ (.processDone password, true) :: after →
    (∀ e ∈ between, e.1 ≠ .onGoodPasscode) → 3 ≤ wrongs before + 1 → delay (wrongs before + 1) ≤ elapsed between

/-- A passcode is set and its wallet saved, and the last entry was right. -/
structure Ready (s : PasscodeScreen) : Prop where
  data : s.config.tonEncryptedData.isSome
  salt : s.config.tonPasscodeSalt.isSome
  last : 0 ≤ s.config.tonLastUptimeMillis
  saved : ∃ preferences, s.preferences = s.config.saveConfig preferences
  tries : s.config.tonBadPasscodeTries = 0

@[simp] theorem elapsed_append (es fs : List (Event × Bool)) : elapsed (es ++ fs) = elapsed es + elapsed fs := by
  induction es with
  | nil => exact (Nat.zero_add _).symm
  | cons e es ih =>
    show e.1.ms + elapsed (es ++ fs) = e.1.ms + elapsed es + elapsed fs
    rw [ih, Nat.add_assoc]

theorem wrongs_append_wrong (es : List (Event × Bool)) (b : Bool) :
    wrongs (es ++ [(.onWrongPasscode, b)]) = wrongs es + 1 := by
  simp [wrongs]

theorem wrongs_append_good (es : List (Event × Bool)) (b : Bool) : wrongs (es ++ [(.onGoodPasscode, b)]) = 0 := by
  simp [wrongs]

/-- Other events are no entries. -/
theorem wrongs_append_other (es : List (Event × Bool)) {e : Event} (b : Bool) (hwrong : e ≠ .onWrongPasscode)
    (hgood : e ≠ .onGoodPasscode) : wrongs (es ++ [(e, b)]) = wrongs es := by
  rw [wrongs, List.foldl_append]
  cases e with
  | onWrongPasscode => exact absurd rfl hwrong
  | onGoodPasscode => exact absurd rfl hgood
  | _ => rfl

theorem delay_mono {k l : Nat} (h : k ≤ l) : delay k ≤ delay l := by
  unfold delay
  omega

/-- The table of delays. -/
theorem retryInMs_eq {k : Nat} (h : 3 ≤ k) : retryInMs k = delay k := by
  unfold retryInMs delay
  split_ifs <;> omega

/-! ## The delay that is left -/

/-- The delay that is left when it is looked at now. -/
def remaining (c : UserConfig) (uptime : Nat) : Int :=
  max 0 (c.tonPasscodeRetryInMs - max 0 (uptime - c.tonLastUptimeMillis))

theorem remaining_congr {c c' : UserConfig} (hretry : c'.tonPasscodeRetryInMs = c.tonPasscodeRetryInMs)
    (hlast : c'.tonLastUptimeMillis = c.tonLastUptimeMillis) (uptime : Nat) :
    remaining c' uptime = remaining c uptime := by
  rw [remaining, remaining, hretry, hlast]

/-- It gets shorter by no more than the time that passes. -/
theorem remaining_wait (c : UserConfig) (uptime ms : Nat) : remaining c uptime ≤ remaining c (uptime + ms) + ms := by
  unfold remaining
  push_cast
  omega

/-- It does not get shorter when the clock starts again. -/
theorem remaining_zero (c : UserConfig) (uptime : Nat) (h : 0 ≤ c.tonLastUptimeMillis) :
    remaining c uptime ≤ remaining c 0 := by
  unfold remaining
  push_cast
  omega

/-- Looking at it does not change it. -/
theorem remaining_checkRetryTextView (c : UserConfig) (uptime : Nat) :
    remaining (c.checkRetryTextView uptime) uptime = remaining c uptime := by
  unfold remaining UserConfig.checkRetryTextView
  dsimp only
  split
  · dsimp only
    split <;> omega
  · dsimp only
    omega

/-- When no delay is shown, none is left. -/
theorem remaining_eq_zero {c : UserConfig} (h : ¬ c.tonPasscodeRetryInMs > 0) (uptime : Nat) : remaining c uptime = 0 := by
  unfold remaining
  omega

/-! ## The invariant -/

/-- The preferences hold the delay of some fields, and their wallet and passcode. -/
def Saved (preferences : Preferences) (c : UserConfig) : Prop := ∃ (saved : UserConfig) (before : Preferences),
  preferences = saved.saveConfig before ∧
    saved.tonEncryptedData.isSome ∧ saved.tonPasscodeSalt.isSome ∧
    saved.tonPasscodeRetryInMs = c.tonPasscodeRetryInMs ∧ saved.tonLastUptimeMillis = c.tonLastUptimeMillis

/-- What holds after some events: the fields count the wrong entries, the delay is saved, and every wrong entry's delay
is covered by the time since then and the delay that is left. -/
structure Inv (es : List (Event × Bool)) (s : PasscodeScreen) : Prop where
  data : s.config.tonEncryptedData.isSome
  salt : s.config.tonPasscodeSalt.isSome
  last : 0 ≤ s.config.tonLastUptimeMillis
  saved : Saved s.preferences s.config
  tries : s.config.tonBadPasscodeTries = wrongs es
  covered : ∀ before between, es = before ++ (.onWrongPasscode, false) :: between →
    (∀ e ∈ between, e.1 ≠ .onGoodPasscode) → 3 ≤ wrongs before + 1 →
      (delay (wrongs before + 1) : Int) ≤ elapsed between + remaining s.config s.uptime

/-- What a new process finds of the passcode. -/
theorem loadConfig_of_saved {c before : UserConfig} {preferences : Preferences}
    (hdata : before.tonEncryptedData.isSome) (hsalt : before.tonPasscodeSalt.isSome)
    (h : loadConfig (before.saveConfig preferences) = some c) :
    c.tonEncryptedData = before.tonEncryptedData ∧ c.tonPasscodeSalt = before.tonPasscodeSalt ∧
      c.tonPasscodeRetryInMs = before.tonPasscodeRetryInMs ∧ c.tonLastUptimeMillis = before.tonLastUptimeMillis ∧
        c.tonBadPasscodeTries = before.tonBadPasscodeTries := by
  obtain ⟨data, hdata⟩ := Option.isSome_iff_exists.1 hdata
  obtain ⟨salt, hsalt⟩ := Option.isSome_iff_exists.1 hsalt
  rw [loadConfig_saveConfig, loadWallet_saveConfig_salt before preferences hdata hsalt] at h
  obtain ⟨w, hw, rfl⟩ := Option.map_eq_some_iff.1 h
  obtain ⟨address, -, hw⟩ := Option.bind_eq_some_iff.1 hw
  cases hw
  exact ⟨rfl, hsalt.symm, rfl, rfl, rfl⟩

theorem getInt_tries_saveConfig {c : UserConfig} {preferences : Preferences} (hdata : c.tonEncryptedData.isSome)
    (hsalt : c.tonPasscodeSalt.isSome) :
    (c.saveConfig preferences).getInt "tonBadPasscodeTries" 0 = some c.tonBadPasscodeTries := by
  obtain ⟨data, hdata⟩ := Option.isSome_iff_exists.1 hdata
  obtain ⟨salt, hsalt⟩ := Option.isSome_iff_exists.1 hsalt
  simp [Preferences.getInt, get_saveConfig, networkKeys, saveWallet, hdata, hsalt, savePasscode, PrefValue.asInt]

section Run

variable {s s' : PasscodeScreen} {es : List (Event × Bool)} {e : Event} {called : Bool}

theorem Ready.inv (h : s.Ready) : Inv [] s := by
  constructor
  · exact h.data
  · exact h.salt
  · exact h.last
  · obtain ⟨preferences, hsaved⟩ := h.saved
    exact ⟨s.config, preferences, hsaved, h.data, h.salt, rfl, rfl⟩
  · exact h.tries
  · intro before between hes
    simp at hes

/-- A list with one more element, taken apart at an element. -/
theorem snoc_eq_append_cons {α : Type} {l before between : List α} {x a : α} (h : l ++ [x] = before ++ a :: between) :
    before = l ∧ a = x ∧ between = [] ∨ ∃ between', between = between' ++ [x] ∧ l = before ++ a :: between' := by
  rcases List.eq_nil_or_concat between with rfl | ⟨between', y, rfl⟩
  · obtain ⟨hl, hx⟩ := List.append_inj' h rfl
    exact .inl ⟨hl.symm, (List.singleton_inj.1 hx).symm, rfl⟩
  · rw [List.concat_eq_append, ← List.cons_append, ← List.append_assoc] at h
    obtain ⟨hl, hx⟩ := List.append_inj' h rfl
    rw [List.singleton_inj] at hx
    subst hx
    exact .inr ⟨between', List.concat_eq_append, hl⟩

/-- Until the next success, entries are only counted. -/
theorem lt_wrongs_of_between {before between : List (Event × Bool)} (h : ∀ e ∈ between, e.1 ≠ .onGoodPasscode) :
    wrongs before + 1 ≤ wrongs (before ++ (.onWrongPasscode, false) :: between) := by
  induction between using List.reverseRecOn with
  | nil => exact Nat.le_of_eq (wrongs_append_wrong before false).symm
  | append_singleton between x ih =>
    obtain ⟨e, called⟩ := x
    have hgood : e ≠ .onGoodPasscode := h (e, called) (by simp)
    have ih := ih fun f hf => h f (List.mem_append_left _ hf)
    rw [← List.cons_append, ← List.append_assoc]
    by_cases hwrong : e = .onWrongPasscode
    · rw [hwrong, wrongs_append_wrong]
      omega
    · rw [wrongs_append_other _ called hwrong hgood]
      exact ih

/-- An event that is no wrong entry takes nothing of a delay but the time it takes. -/
theorem Inv.covered_snoc (h : Inv es s) (hwrong : e ≠ .onWrongPasscode)
    (hremaining : remaining s.config s.uptime ≤ e.ms + remaining s'.config s'.uptime) {before between}
    (hes : es ++ [(e, called)] = before ++ (.onWrongPasscode, false) :: between)
    (hgood : ∀ e ∈ between, e.1 ≠ .onGoodPasscode) (hthree : 3 ≤ wrongs before + 1) :
    (delay (wrongs before + 1) : Int) ≤ elapsed between + remaining s'.config s'.uptime := by
  rcases snoc_eq_append_cons hes with ⟨-, heq, -⟩ | ⟨between', rfl, hold⟩
  · exact absurd (Prod.mk.inj heq).1.symm hwrong
  · have hold := h.covered before between' hold (fun f hf => hgood f (List.mem_append_left _ hf)) hthree
    have hms : elapsed [(e, called)] = e.ms := by simp [elapsed]
    rw [elapsed_append, hms]
    push_cast
    omega

/-- What an event leaves that counts no entry and saves the delay or leaves it alone. -/
theorem Inv.of_same (h : Inv es s) (hwrong : e ≠ .onWrongPasscode) (hgood : e ≠ .onGoodPasscode)
    (hdata : s'.config.tonEncryptedData = s.config.tonEncryptedData)
    (hsalt : s'.config.tonPasscodeSalt = s.config.tonPasscodeSalt) (hlast : 0 ≤ s'.config.tonLastUptimeMillis)
    (hsaved : Saved s'.preferences s'.config) (htries : s'.config.tonBadPasscodeTries = s.config.tonBadPasscodeTries)
    (hremaining : remaining s.config s.uptime ≤ e.ms + remaining s'.config s'.uptime) :
    Inv (es ++ [(e, called)]) s' := by
  constructor
  · rw [hdata]
    exact h.data
  · rw [hsalt]
    exact h.salt
  · exact hlast
  · exact hsaved
  · rw [htries, h.tries, wrongs_append_other es called hwrong hgood]
  · intro before between
    exact h.covered_snoc hwrong hremaining

theorem checkRetryTextView_fields (c : UserConfig) (now : Int) :
    (c.checkRetryTextView now).tonEncryptedData = c.tonEncryptedData ∧
      (c.checkRetryTextView now).tonPasscodeSalt = c.tonPasscodeSalt ∧
      (c.checkRetryTextView now).tonBadPasscodeTries = c.tonBadPasscodeTries ∧
      (c.checkRetryTextView now).tonLastUptimeMillis = now := by
  unfold UserConfig.checkRetryTextView
  dsimp only
  split <;> exact ⟨rfl, rfl, rfl, rfl⟩

/-- Looking at the delay saves it. -/
theorem Inv.checkRetryTextView (h : Inv es s) (hwrong : e ≠ .onWrongPasscode) (hgood : e ≠ .onGoodPasscode) :
    Inv (es ++ [(e, called)]) s.checkRetryTextView := by
  obtain ⟨hdata, hsalt, htries, hlast⟩ := checkRetryTextView_fields s.config s.uptime
  refine h.of_same hwrong hgood hdata hsalt ?_ ?_ htries ?_
  · show 0 ≤ (s.config.checkRetryTextView s.uptime).tonLastUptimeMillis
    rw [hlast]
    omega
  · refine ⟨s.config.checkRetryTextView s.uptime, s.preferences, rfl, ?_, ?_, rfl, rfl⟩
    · rw [hdata]
      exact h.data
    · rw [hsalt]
      exact h.salt
  · show _ ≤ (e.ms : Int) + remaining (s.config.checkRetryTextView s.uptime) s.uptime
    rw [remaining_checkRetryTextView]
    omega

/-- A new process that finds all entries finds the delay, too. -/
theorem Inv.restart (h : Inv es s) (hok : s.TriesSaved) {t : PasscodeScreen} (hrestart : s.restart = some t)
    (hwrong : e ≠ .onWrongPasscode) (hgood : e ≠ .onGoodPasscode) (uptime : Nat)
    (hremaining : remaining s.config s.uptime ≤ e.ms + remaining s.config uptime) :
    Inv (es ++ [(e, called)]) { t with uptime := uptime } := by
  obtain ⟨c, hload, rfl⟩ := Option.map_eq_some_iff.1 hrestart
  obtain ⟨saved, before, hpreferences, hsdata, hssalt, hretry, hlast⟩ := h.saved
  unfold TriesSaved at hok
  rw [hpreferences, getInt_tries_saveConfig hsdata hssalt] at hok
  rw [hpreferences] at hload
  obtain ⟨hcdata, hcsalt, hcretry, hclast, hctries⟩ := loadConfig_of_saved hsdata hssalt hload
  have hremaining' : remaining c uptime = remaining s.config uptime :=
    remaining_congr (hcretry.trans hretry) (hclast.trans hlast) uptime
  constructor
  · show c.tonEncryptedData.isSome
    rwa [hcdata]
  · show c.tonPasscodeSalt.isSome
    rwa [hcsalt]
  · show 0 ≤ c.tonLastUptimeMillis
    rw [hclast, hlast]
    exact h.last
  · exact ⟨saved, before, hpreferences, hsdata, hssalt, hcretry.symm, hclast.symm⟩
  · show c.tonBadPasscodeTries = _
    rw [hctries, Option.some.inj hok, h.tries, wrongs_append_other es called hwrong hgood]
  · intro before' between
    refine h.covered_snoc hwrong ?_
    show _ ≤ (e.ms : Int) + remaining c uptime
    rw [hremaining']
    exact hremaining

theorem increaseBadPasscodeTries_fields (c : UserConfig) (now : Int) :
    (c.increaseBadPasscodeTries now).tonEncryptedData = c.tonEncryptedData ∧
      (c.increaseBadPasscodeTries now).tonPasscodeSalt = c.tonPasscodeSalt ∧
      (c.increaseBadPasscodeTries now).tonBadPasscodeTries = c.tonBadPasscodeTries + 1 := by
  unfold increaseBadPasscodeTries
  dsimp only
  split <;> exact ⟨rfl, rfl, rfl⟩

/-- The fields and what is saved after a wrong entry: nothing is saved while there is no delay. -/
theorem onWrongPasscode_cases (s : PasscodeScreen) :
    s.onWrongPasscode.uptime = s.uptime ∧
      ((s.config.increaseBadPasscodeTries s.uptime).tonPasscodeRetryInMs > 0 ∧
          s.onWrongPasscode.config = (s.config.increaseBadPasscodeTries s.uptime).checkRetryTextView s.uptime ∧
          s.onWrongPasscode.preferences = s.onWrongPasscode.config.saveConfig s.preferences ∨
        ¬ (s.config.increaseBadPasscodeTries s.uptime).tonPasscodeRetryInMs > 0 ∧
          s.onWrongPasscode.config = s.config.increaseBadPasscodeTries s.uptime ∧
          s.onWrongPasscode.preferences = s.preferences) := by
  unfold onWrongPasscode
  dsimp only
  split
  · next h => exact ⟨rfl, .inl ⟨h, rfl, rfl⟩⟩
  · next h => exact ⟨rfl, .inr ⟨h, rfl, rfl⟩⟩

/-- A wrong entry is counted, and from the third on it starts a delay. -/
theorem Inv.onWrongPasscode (h : Inv es s) : Inv (es ++ [(.onWrongPasscode, called)]) s.onWrongPasscode := by
  obtain ⟨hdata, hsalt, htries⟩ := increaseBadPasscodeTries_fields s.config s.uptime
  obtain ⟨hcdata, hcsalt, hctries, hclast⟩ :=
    checkRetryTextView_fields (s.config.increaseBadPasscodeTries s.uptime) s.uptime
  obtain ⟨huptime, hcases⟩ := onWrongPasscode_cases s
  have hcount : s.config.tonBadPasscodeTries + 1 = (wrongs es + 1 : Nat) := by
    rw [h.tries]
    push_cast
    rfl
  -- the delay that the entry leaves
  have hremaining : remaining s.onWrongPasscode.config s.onWrongPasscode.uptime =
      remaining (s.config.increaseBadPasscodeTries s.uptime) s.uptime := by
    rw [huptime]
    rcases hcases with ⟨-, hconfig, -⟩ | ⟨-, hconfig, -⟩
    · rw [hconfig, remaining_checkRetryTextView]
    · rw [hconfig]
  have hnew (hthree : 3 ≤ wrongs es + 1) :
      remaining (s.config.increaseBadPasscodeTries s.uptime) s.uptime = delay (wrongs es + 1) := by
    have hge : s.config.tonBadPasscodeTries + 1 ≥ 3 := by omega
    unfold increaseBadPasscodeTries
    dsimp only
    rw [if_pos hge, hcount, retryInMs_eq hthree]
    unfold remaining
    dsimp only
    omega
  have hfew (hthree : ¬ 3 ≤ wrongs es + 1) :
      s.config.increaseBadPasscodeTries s.uptime =
        { s.config with tonBadPasscodeTries := s.config.tonBadPasscodeTries + 1 } := by
    unfold increaseBadPasscodeTries
    dsimp only
    rw [if_neg (by omega)]
  constructor
  · rcases hcases with ⟨-, hconfig, -⟩ | ⟨-, hconfig, -⟩
    · rw [hconfig, hcdata, hdata]
      exact h.data
    · rw [hconfig, hdata]
      exact h.data
  · rcases hcases with ⟨-, hconfig, -⟩ | ⟨-, hconfig, -⟩
    · rw [hconfig, hcsalt, hsalt]
      exact h.salt
    · rw [hconfig, hsalt]
      exact h.salt
  · rcases hcases with ⟨-, hconfig, -⟩ | ⟨-, hconfig, -⟩
    · rw [hconfig, hclast]
      omega
    · rw [hconfig]
      unfold increaseBadPasscodeTries
      dsimp only
      split
      · dsimp only
        omega
      · exact h.last
  · rcases hcases with ⟨-, hconfig, hpreferences⟩ | ⟨hnone, hconfig, hpreferences⟩
    · refine ⟨s.onWrongPasscode.config, s.preferences, hpreferences, ?_, ?_, rfl, rfl⟩
      · rw [hconfig, hcdata, hdata]
        exact h.data
      · rw [hconfig, hcsalt, hsalt]
        exact h.salt
    · -- there is a delay from the third entry on
      have hthree : ¬ 3 ≤ wrongs es + 1 := by
        intro hthree
        have hzero := remaining_eq_zero hnone s.uptime
        rw [hnew hthree, delay] at hzero
        omega
      rw [hpreferences, hconfig, hfew hthree]
      exact h.saved
  · have hconfig : s.onWrongPasscode.config.tonBadPasscodeTries = s.config.tonBadPasscodeTries + 1 := by
      rcases hcases with ⟨-, hconfig, -⟩ | ⟨-, hconfig, -⟩
      · rw [hconfig, hctries, htries]
      · rw [hconfig, htries]
    rw [hconfig, hcount, wrongs_append_wrong]
  · intro before between hes hgood hthree
    rw [hremaining]
    rcases snoc_eq_append_cons hes with ⟨rfl, -, rfl⟩ | ⟨between', rfl, hold⟩
    · rw [hnew hthree]
      omega
    · have hlt : wrongs before + 1 ≤ wrongs es := by
        rw [hold]
        exact lt_wrongs_of_between fun f hf => hgood f (List.mem_append_left _ hf)
      have hmono : delay (wrongs before + 1) ≤ delay (wrongs es + 1) := delay_mono (by omega)
      rw [hnew (by omega)]
      omega

/-- A success ends the counting. -/
theorem Inv.onGoodPasscode (h : Inv es s) : Inv (es ++ [(.onGoodPasscode, called)]) s.onGoodPasscode := by
  constructor
  · exact h.data
  · exact h.salt
  · exact h.last
  · exact ⟨{ s.config with tonBadPasscodeTries := 0 }, s.preferences, rfl, h.data, h.salt, rfl, rfl⟩
  · rw [wrongs_append_good]
    rfl
  · intro before between hes hgood hthree
    rcases snoc_eq_append_cons hes with ⟨-, heq, -⟩ | ⟨between', rfl, -⟩
    · cases heq
    · exact absurd rfl (hgood (.onGoodPasscode, called) (by simp))

theorem Inv.step (h : Inv es s) (hstep : StepWhen s (e, called) s') : Inv (es ++ [(e, called)]) s' := by
  obtain ⟨hok, hstep⟩ := hstep
  unfold Step at hstep
  cases e with
  | wait ms =>
    cases hstep
    have hwait := remaining_wait s.config s.uptime ms
    exact h.of_same nofun nofun rfl rfl h.last h.saved rfl (by simpa [Event.ms, Int.add_comm] using hwait)
  | reboot ms =>
    obtain ⟨t, ht, heq⟩ := Option.map_eq_some_iff.1 hstep
    cases heq
    have hzero := remaining_zero s.config s.uptime h.last
    exact h.restart (e := .reboot ms) hok ht nofun nofun 0 (by omega)
  | restart =>
    obtain ⟨t, ht, heq⟩ := Option.map_eq_some_iff.1 hstep
    cases heq
    have huptime : s'.uptime = s.uptime := by
      obtain ⟨c, -, rfl⟩ := Option.map_eq_some_iff.1 ht
      rfl
    have hinv : Inv (es ++ [(.restart, false)]) { s' with uptime := s.uptime } :=
      h.restart (e := .restart) hok ht nofun nofun s.uptime (by omega)
    rwa [← huptime] at hinv
  | onShow | onResume | checkRunnable =>
    cases hstep
    exact h.checkRetryTextView nofun nofun
  | onPause =>
    cases hstep
    exact h.of_same nofun nofun rfl rfl h.last h.saved rfl (by omega)
  | processDone password =>
    simp only [PasscodeScreen.step] at hstep
    split at hstep <;>
    · cases hstep
      exact h.of_same nofun nofun rfl rfl h.last h.saved rfl (Int.le_add_of_nonneg_left (Int.natCast_nonneg _))
  | onWrongPasscode =>
    simp only [PasscodeScreen.step] at hstep
    split at hstep
    · cases hstep
    · cases hstep
      have hsame : Inv es { s with checking := s.checking - 1 } := ⟨h.data, h.salt, h.last, h.saved, h.tries, h.covered⟩
      exact hsame.onWrongPasscode
  | onGoodPasscode =>
    simp only [PasscodeScreen.step] at hstep
    split at hstep
    · cases hstep
    · cases hstep
      have hsame : Inv es { s with checking := s.checking - 1 } := ⟨h.data, h.salt, h.last, h.saved, h.tries, h.covered⟩
      exact hsame.onGoodPasscode

theorem inv_of_run {s₀ : PasscodeScreen} (h : Run StepWhen s₀ es s) (hready : s₀.Ready) : Inv es s := by
  induction h with
  | nil => exact hready.inv
  | snoc _ hstep ih => exact ih.step hstep

/-- A passcode is only checked when no delay is left. -/
theorem remaining_of_called {password : String} (h : StepWhen s (.processDone password, true) s') :
    remaining s.config s.uptime = 0 := by
  obtain ⟨-, hstep⟩ := h
  simp only [Step, PasscodeScreen.step] at hstep
  split at hstep
  · next hcalls =>
    unfold processDone at hcalls
    split at hcalls
    · cases hcalls
    · next hdelay => exact remaining_eq_zero hdelay s.uptime
  · cases hstep

/-- Wrong entries are followed by their delays in every run in which no new process forgets an entry. -/
theorem delayed_of_run {s₀ : PasscodeScreen} (h : Run StepWhen s₀ es s) (hready : s₀.Ready) : Delayed es := by
  intro before between after password hes hgood hthree
  rw [hes] at h
  obtain ⟨t, v, hrun, hstep⟩ := h.at_event
  have hcovered := (inv_of_run hrun hready).covered before between rfl hgood hthree
  rw [remaining_of_called hstep] at hcovered
  omega

end Run

namespace Sample

/-- The state after a step that calls `checkPasscode` or does not, as it says. -/
def stepTo (s : PasscodeScreen) (e : Event × Bool) : Option PasscodeScreen :=
  (s.step e.1).bind fun r => if r.1 = e.2 then some r.2 else none

theorem step_of_stepTo {s t : PasscodeScreen} {e : Event × Bool} (h : stepTo s e = some t) : Step s e t := by
  obtain ⟨⟨called, u⟩, hstep, h⟩ := Option.bind_eq_some_iff.1 h
  dsimp only at h
  split at h
  · next hcalled =>
    cases h
    unfold Step
    rw [hstep, ← hcalled]
  · cases h

instance (s : PasscodeScreen) (e : Event × Bool) : Decidable (s.StepOk e.1) := match e.1 with
  | .reboot _ | .restart => inferInstanceAs (Decidable (_ = _))
  | .wait _ | .onShow | .onResume | .checkRunnable | .onPause | .processDone _ | .onWrongPasscode | .onGoodPasscode =>
    isTrue trivial

/-- A wallet with a passcode. -/
def wallet : UserConfig where
  tonEncryptedData := some "data"
  tonPublicKey := some "key"
  tonAccountAddress := some "address"
  tonPasscodeType := 0
  tonPasscodeSalt := some [1, 2, 3, 4]
  tonKeyName := some "walletKey1"
  tonCreationFinished := true

/-- The wallet and its passcode are saved. -/
def fresh : PasscodeScreen := ⟨wallet, wallet.saveConfig [], 0, 1000⟩

theorem ready_fresh : fresh.Ready := ⟨rfl, rfl, Int.le_refl 0, ⟨[], rfl⟩, rfl⟩

/-- A passcode that is wrong. -/
def wrong : List (Event × Bool) := [(.processDone "1111", true), (.onWrongPasscode, false)]

/-- Three wrong passcodes, a restart, a passcode that is not looked at and one after the delay. -/
def waited : List (Event × Bool) :=
  wrong ++ wrong ++ wrong ++ [(.restart, false), (.onShow, false), (.processDone "2222", false), (.wait 5000, false),
    (.checkRunnable, false), (.processDone "2222", true)]

theorem delayed_waited : Delayed waited := by
  have hrun : Run (Steps.When stepTo fun s e => s.StepOk e.1) fresh waited
      ((exec (fun s e => if s.StepOk e.1 then stepTo s e else none) fresh waited).getD fresh) :=
    Run.of_exec_when (Option.getD_of_ne_none (by decide +kernel) _).symm
  refine delayed_of_run (hrun.mono ?_) ready_fresh
  rintro s e t ⟨hok, hstep⟩
  exact ⟨hok, step_of_stepTo hstep⟩

/-- Two wrong passcodes, a restart, a third one and a fourth passcode. -/
def forgotten : List (Event × Bool) :=
  wrong ++ wrong ++ [(.restart, false)] ++ wrong ++ [(.processDone "2222", true)]

/-- A process that starts again after two wrong passcodes knows of none. -/
theorem not_delayed_forgotten :
    ¬ ∀ (s₀ s : PasscodeScreen) (es : List (Event × Bool)), s₀.Ready → Run Step s₀ es s → Delayed es := by
  intro h
  have hrun : Run (Steps stepTo) fresh forgotten ((exec stepTo fresh forgotten).getD fresh) :=
    Run.of_exec (Option.getD_of_ne_none (by decide +kernel) _).symm
  have hdelayed := h fresh _ forgotten ready_fresh (hrun.mono fun s e t hstep => step_of_stepTo hstep)
  have hdelay := hdelayed (wrong ++ wrong ++ [(.restart, false), (.processDone "1111", true)]) [] [] "2222" rfl nofun
    (by decide)
  revert hdelay
  decide

end Sample

end PasscodeScreen

end TonWallet.App
