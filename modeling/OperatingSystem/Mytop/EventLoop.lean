import OperatingSystem.Mytop.CpuTime

/-! # The event loop of mytop

The options and the loop of `main` in `mytop.c`. `updateTime` is the configured
period of the refreshes and is overwritten when `Enter` or `Space` refreshes at once,
so a period given with `-d` holds only up to such a key.
-/

namespace OperatingSystem.Mytop

open Libc

/-- What `getch` returns. `other` is any code that the loop does not know, among them the initial 0
and the timeout. -/
inductive Key where
  | left
  | right
  | up
  | down
  | enter
  | space
  | shiftR
  | shiftP
  | shiftM
  | shiftN
  | shiftT
  | shiftE
  | k
  | q
  | other
  deriving DecidableEq, Repr

inductive SortMode where
  | cpu
  | mem
  | pid
  | time
  deriving DecidableEq, Repr

structure Options where
  dOption : Bool
  nOption : Bool
  updateTime : BitVec 64
  updatePeriod : BitVec 64
  deriving DecidableEq

/-- The loop over the characters of `argv[1]`, with `argv[2]` as the value. -/
def scanOption (value : List Char) : List Char → Options
  | [] => ⟨false, false, 0, 0⟩
  | 'd' :: _ => ⟨true, false, ulong (atoi value), 0⟩
  | 'n' :: _ => ⟨false, true, 0, ulong (atoi value)⟩
  | _ :: arg => scanOption value arg

def parseOptions : List (List Char) → Options
  | _ :: arg :: value :: _ => scanOption value arg
  | _ => ⟨false, false, 0, 0⟩

/-- The refresh period that the command line asks for. -/
def period (argv : List (List Char)) : BitVec 64 :=
  if (parseOptions argv).dOption then (parseOptions argv).updateTime else 3

structure Loop extends Options where
  ch : Key
  row : ℕ
  col : ℕ
  print : Bool
  killMode : Bool
  reverseMode : Bool
  sortMode : SortMode
  byteUnit : ℕ
  before : BitVec 64
  processes : Processes
  done : Bool

/-- What an iteration reads: the clock, the processes and the key at its end. -/
structure Reading where
  now : BitVec 64
  scan : Snapshot
  key : Key

def start (argv : List (List Char)) (time : BitVec 64) (scan : Snapshot) : Loop where
  toOptions := parseOptions argv
  ch := .other
  row := 0
  col := 0
  print := false
  killMode := false
  reverseMode := false
  sortMode := .cpu
  byteUnit := 2
  before := time
  processes := refresh .initial scan
  done := false

def switchCh (s : Loop) : Loop :=
  match s.ch with
  | .left => { s with col := s.col - 1, print := true }
  | .right => { s with col := s.col + 1, print := true }
  | .up => { s with row := s.row - 1, print := true }
  | .down =>
    let procCnt := s.processes.procList.length
    { s with row := if s.row + 1 > procCnt then procCnt else s.row + 1, print := true }
  | .enter => { s with print := true }
  | .space => { s with print := true }
  | .shiftR => { s with print := true, reverseMode := !s.reverseMode }
  | .shiftP => { s with print := true, sortMode := .cpu }
  | .shiftM => { s with print := true, sortMode := .mem }
  | .shiftN => { s with print := true, sortMode := .pid }
  | .shiftT => { s with print := true, sortMode := .time }
  | .shiftE => { s with print := true, byteUnit := if s.byteUnit + 1 > 6 then 1 else s.byteUnit + 1 }
  | .k => { s with print := true, killMode := true }
  | .q => s
  | .other => s

/-- An iteration up to the test of `print` and the clock. -/
def atTest (s : Loop) : Loop :=
  let s := switchCh s
  if s.dOption then s else { s with updateTime := 3 }

/-- The branch that refreshes the screen. -/
def refreshScreen (s : Loop) (r : Reading) : Loop :=
  let s := if s.ch = .enter ∨ s.ch = .space then { s with updateTime := 0 } else s
  let s := { s with
    killMode := false
    processes := refresh s.processes r.scan
    before := r.now
    print := false }
  if s.nOption then
    let s := { s with updatePeriod := s.updatePeriod - 1 }
    if s.updatePeriod = 0 then { s with done := true } else s
  else s

def iterate (s : Loop) (r : Reading) : Loop :=
  let s := atTest s
  let s := if s.print ∨ s.updateTime ≤ r.now - s.before then refreshScreen s r else s
  if s.done then s else { s with ch := r.key, done := decide (r.key = .q) }

/-- The values of `updateTime` at the tests of a run. -/
def tests (s : Loop) : List Reading → List (BitVec 64)
  | [] => []
  | r :: rs => if s.done then [] else (atTest s).updateTime :: tests (iterate s r) rs

/-- The keys that the iterations of a run handle, the first of them given: `q` ends the loop. -/
def handled (ch : Key) : List Reading → List Key
  | [] => []
  | r :: rs => ch :: if r.key = .q then [] else handled r.key rs

variable {s : Loop} {r : Reading} {rs : List Reading}

/-- `Enter` and `Space` refresh the screen at once. -/
def Key.Immediate (key : Key) : Prop := key = .enter ∨ key = .space

instance (key : Key) : Decidable key.Immediate := inferInstanceAs (Decidable (_ ∨ _))

section Step

theorem switchCh_frame (s : Loop) : (switchCh s).toOptions = s.toOptions ∧ (switchCh s).ch = s.ch ∧
    (switchCh s).done = s.done ∧ (switchCh s).processes = s.processes := by
  unfold switchCh
  split <;> exact ⟨rfl, rfl, rfl, rfl⟩

theorem switchCh_print (h : s.ch.Immediate) : (switchCh s).print = true := by
  rcases h with h | h <;> simp [switchCh, h]

theorem atTest_eq (s : Loop) :
    atTest s = if s.dOption then switchCh s else { switchCh s with updateTime := 3 } := by
  unfold atTest
  dsimp only
  rw [(switchCh_frame s).1]

theorem atTest_frame (s : Loop) : (atTest s).dOption = s.dOption ∧ (atTest s).nOption = s.nOption ∧
    (atTest s).ch = s.ch ∧ (atTest s).done = s.done ∧ (atTest s).processes = s.processes := by
  obtain ⟨ho, hch, hdone, hproc⟩ := switchCh_frame s
  rw [atTest_eq]
  split <;> simp [ho, hch, hdone, hproc]

theorem atTest_updateTime (s : Loop) :
    (atTest s).updateTime = if s.dOption then s.updateTime else 3 := by
  rw [atTest_eq]
  split
  case isTrue => rw [(switchCh_frame s).1]
  case isFalse => rfl

theorem refreshScreen_options (s : Loop) (r : Reading) :
    (refreshScreen s r).dOption = s.dOption ∧ (refreshScreen s r).nOption = s.nOption ∧
      (refreshScreen s r).updateTime = if s.ch.Immediate then 0 else s.updateTime := by
  unfold refreshScreen Key.Immediate
  by_cases hch : s.ch = .enter ∨ s.ch = .space <;> cases hn : s.nOption <;> simp [hch, hn] <;>
    split <;> exact ⟨rfl, rfl, rfl⟩

theorem refreshScreen_done (hn : s.nOption = false) : (refreshScreen s r).done = s.done := by
  unfold refreshScreen
  by_cases hch : s.ch = .enter ∨ s.ch = .space <;> simp [hch, hn]

theorem iterate_dOption (s : Loop) (r : Reading) : (iterate s r).dOption = s.dOption := by
  have hat := (atTest_frame s).1
  have hre := (refreshScreen_options (atTest s) r).1
  unfold iterate
  dsimp only
  split_ifs <;> simp [hat, hre]

theorem iterate_updateTime (hd : s.dOption = true) (hn : s.nOption = false) (hf : s.done = false) :
    (iterate s r).updateTime = (if s.ch.Immediate then 0 else s.updateTime) ∧
      (iterate s r).nOption = false ∧ (iterate s r).ch = r.key ∧
      (iterate s r).done = decide (r.key = .q) := by
  obtain ⟨-, hnat, hchat, hfat, -⟩ := atTest_frame s
  have htime := atTest_updateTime s
  obtain ⟨-, hnre, htre⟩ := refreshScreen_options (atTest s) r
  have hfre := refreshScreen_done (r := r) (hnat.trans hn)
  rw [hd, if_pos rfl] at htime
  rw [hchat, htime] at htre
  have hprint : s.ch.Immediate → (atTest s).print = true := by
    intro hk
    rw [atTest_eq, if_pos hd]
    exact switchCh_print hk
  unfold iterate
  dsimp only
  split
  case isTrue => simp [hfre, hfat, hf, htre, hnre, hnat, hn]
  case isFalse hno =>
    have hk : ¬ s.ch.Immediate := fun hk => hno (Or.inl (hprint hk))
    simp [hfat, hf, hk, htime, hnat, hn]

end Step

theorem parseOptions_nOption {argv : List (List Char)} (h : (parseOptions argv).dOption = true) :
    (parseOptions argv).nOption = false := by
  have hscan : ∀ value arg, (scanOption value arg).dOption = true →
      (scanOption value arg).nOption = false := by
    intro value arg
    fun_induction scanOption value arg with
    | case1 => exact fun _ => rfl
    | case2 => exact fun _ => rfl
    | case3 => exact fun h => absurd h Bool.false_ne_true
    | case4 c arg hd hn ih => exact ih
  unfold parseOptions at h ⊢
  split at h
  · exact hscan _ _ h
  · rfl

/-- Without `-d` every test reads the default. -/
theorem tests_default (hd : s.dOption = false) : ∀ u ∈ tests s rs, u = 3 := by
  induction rs generalizing s with
  | nil => simp [tests]
  | cons r rs ih =>
    rw [tests]
    split
    case isTrue => simp
    case isFalse =>
      rintro u (_ | ⟨_, hu⟩)
      · simp [atTest_updateTime, hd]
      · exact ih ((iterate_dOption s r).trans hd) u hu

theorem handled_ne_nil (ch : Key) (r : Reading) (rs : List Reading) : handled ch (r :: rs) ≠ [] := by
  simp [handled]

/-- With `-d` a test reads the period until a key that refreshes at once has been handled. -/
theorem tests_period (hd : s.dOption = true) (hn : s.nOption = false) (hf : s.done = false) :
    (∀ u ∈ tests s rs, u = s.updateTime) ↔
      s.updateTime = 0 ∨ ∀ key ∈ (handled s.ch rs).dropLast, ¬ key.Immediate := by
  induction rs generalizing s with
  | nil => simp [tests, handled]
  | cons r rs ih =>
    obtain ⟨htime, hn', hch, hf'⟩ := iterate_updateTime (r := r) hd hn hf
    have hd' := (iterate_dOption s r).trans hd
    have hat : (atTest s).updateTime = s.updateTime := by simp [atTest_updateTime, hd]
    by_cases hq : r.key = .q
    · have hnil : tests (iterate s r) rs = [] := by
        cases rs <;> simp [tests, hf', hq]
      simp [tests, hf, hat, hnil, handled, hq]
    · have hf'' : (iterate s r).done = false := by simp [hf', hq]
      have ih := ih hd' hn' hf''
      rw [htime, hch] at ih
      simp only [tests, hf, handled, hq, hat, Bool.false_eq_true, if_false]
      cases rs with
      | nil => simp [tests, handled]
      | cons r' rs =>
        rw [List.dropLast_cons_of_ne_nil (handled_ne_nil r.key r' rs)]
        by_cases hk : s.ch.Immediate
        · rw [if_pos hk] at ih htime
          have hzero := ih.mpr (Or.inl rfl)
          have hmem : 0 ∈ tests (iterate s r) (r' :: rs) := by
            simp [tests, hf'', atTest_updateTime, hd', htime]
          have hiff : (∀ u ∈ tests (iterate s r) (r' :: rs), u = s.updateTime) ↔ s.updateTime = 0 :=
            ⟨fun h => (h 0 hmem).symm, fun h u hu => (hzero u hu).trans h.symm⟩
          simpa [hk] using hiff
        · rw [if_neg hk] at ih
          simpa [hk] using ih

/-- The configured refresh period. In every run of the loop each test reads the configured period
exactly when there is no `-d`, its value is 0, or no key but the last one that is handled is `Enter`
or `Space`. -/
theorem period_kept_iff (argv : List (List Char)) (time : BitVec 64) (scan : Snapshot)
    (rs : List Reading) :
    (∀ u ∈ tests (start argv time scan) rs, u = period argv) ↔
      (parseOptions argv).dOption = false ∨ period argv = 0 ∨
        ∀ key ∈ (handled .other rs).dropLast, ¬ key.Immediate := by
  cases hd : (parseOptions argv).dOption with
  | false =>
    have hperiod : period argv = 3 := by simp [period, hd]
    rw [hperiod]
    exact iff_of_true (tests_default hd) (Or.inl rfl)
  | true =>
    have hperiod : period argv = (start argv time scan).updateTime := by simp [period, hd, start]
    rw [hperiod, tests_period hd (parseOptions_nOption hd) rfl]
    simp [start]

def emptyScan : Snapshot := ⟨[], List.nodup_nil⟩

def fiveSeconds : List (List Char) := [['m', 'y', 't', 'o', 'p'], ['-', 'd'], ['5']]

/-- With `Enter` pressed once, the test after the one that handles the key reads 0. -/
theorem period_lost :
    ¬ ∀ u ∈ tests (start fiveSeconds 0 emptyScan)
      [⟨0, emptyScan, .enter⟩, ⟨1, emptyScan, .other⟩, ⟨2, emptyScan, .other⟩],
      u = period fiveSeconds := by
  have hperiod : period fiveSeconds = 5 := by decide
  have htests : tests (start fiveSeconds 0 emptyScan)
      [⟨0, emptyScan, .enter⟩, ⟨1, emptyScan, .other⟩, ⟨2, emptyScan, .other⟩] = [5, 5, 0] := by
    decide
  rw [hperiod, htests]
  intro h
  exact absurd (h 0 (by simp)) (by decide)

end OperatingSystem.Mytop
