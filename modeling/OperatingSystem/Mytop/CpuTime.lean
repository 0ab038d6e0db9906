import Mathlib.Data.List.Nodup
import Mathlib.Logic.Function.Basic
import Mathlib.Order.MinMax
import OperatingSystem.Libc

/-! # CPU times of the processes

The table `cpuTimeTable` of `mytop.c` over a sequence of screen refreshes. It is
keyed by the pid and outlives the processes, so a `%CPU` difference is taken against
the process that had the pid when it was last read.
-/

namespace OperatingSystem.Mytop

open Libc

abbrev pidMax : ℕ := 32768

structure Proc where
  pid : Fin pidMax
  startTime : ℕ
  utime : ℕ
  stime : ℕ
  deriving DecidableEq

def Proc.totalTime (p : Proc) : BitVec 64 := ulong (toInt p.utime) + ulong (toInt p.stime)

/-- A pid directory whose `stat` file is read. The function returns early when the files it opens
after that are gone. -/
structure Entry where
  proc : Proc
  complete : Bool
  deriving DecidableEq

/-- The pid directories of one scan of `/proc`. -/
structure Snapshot where
  entries : List Entry
  nodup : (entries.map fun e => e.proc.pid).Nodup

/-- What `%CPU` is computed from: the difference to the table's value, or the time since the
process started. -/
inductive Usage where
  | delta (old : BitVec 64)
  | lifetime
  deriving DecidableEq

/-- The fields of a `myProc` that this part fills in. -/
structure MyProc where
  pid : Fin pidMax
  cpu : Usage
  deriving DecidableEq

structure Processes where
  cpuTimeTable : Fin pidMax → BitVec 64
  procList : List MyProc

def Processes.initial : Processes := ⟨fun _ => 0, []⟩

def usage (s : Processes) (p : Proc) : Usage :=
  if s.cpuTimeTable p.pid ≠ 0 then .delta (s.cpuTimeTable p.pid) else .lifetime

def addProcessList (s : Processes) (e : Entry) : Processes where
  cpuTimeTable := Function.update s.cpuTimeTable e.proc.pid e.proc.totalTime
  procList := if e.complete then s.procList ++ [⟨e.proc.pid, usage s e.proc⟩] else s.procList

def searchProcess (s : Processes) (scan : Snapshot) : Processes :=
  scan.entries.foldl addProcessList s

def eraseProcessList (s : Processes) : Processes := { s with procList := [] }

/-- The two calls of a screen refresh. The first scan of `main` finds an empty list. -/
def refresh (s : Processes) (scan : Snapshot) : Processes :=
  searchProcess (eraseProcessList s) scan

variable {h : ℕ → Snapshot} {i j : ℕ} {e e' : Entry} {s : Processes} {pid : Fin pidMax}

def before (h : ℕ → Snapshot) : ℕ → Processes
  | 0 => .initial
  | i + 1 => refresh (before h i) (h i)

/-- In refresh `i` the function `AddProcessList` is called for `e` on the variables `s`. -/
def Called (h : ℕ → Snapshot) (i : ℕ) (e : Entry) (s : Processes) : Prop :=
  ∃ pre post, (h i).entries = pre ++ e :: post ∧
    s = pre.foldl addProcessList (eraseProcessList (before h i))

/-- Before refresh `i` the pid was last seen in refresh `j`, as the process of `e`. -/
structure LastSeen (h : ℕ → Snapshot) (i : ℕ) (pid : Fin pidMax) (j : ℕ) (e : Entry) : Prop where
  lt : j < i
  mem : e ∈ (h j).entries
  owner : e.proc.pid = pid
  last : ∀ k, j < k → k < i → ∀ q ∈ (h k).entries, q.proc.pid ≠ pid

section Table

theorem foldl_table_of_ne {l : List Entry} (hl : ∀ e ∈ l, e.proc.pid ≠ pid) (s : Processes) :
    (l.foldl addProcessList s).cpuTimeTable pid = s.cpuTimeTable pid := by
  induction l generalizing s with
  | nil => rfl
  | cons e l ih =>
    rw [List.foldl_cons, ih fun q hq => hl q (List.mem_cons_of_mem e hq)]
    exact Function.update_of_ne (hl e List.mem_cons_self).symm _ _

theorem Snapshot.pid_ne {scan : Snapshot} {pre post : List Entry}
    (hs : scan.entries = pre ++ e :: post) :
    (∀ q ∈ pre, q.proc.pid ≠ e.proc.pid) ∧ ∀ q ∈ post, q.proc.pid ≠ e.proc.pid := by
  have hn := scan.nodup
  rw [hs, List.map_append, List.map_cons, List.nodup_append, List.nodup_cons] at hn
  obtain ⟨-, ⟨hpost, -⟩, hpre⟩ := hn
  constructor
  · intro q hq heq
    exact hpre _ (List.mem_map_of_mem hq) _ List.mem_cons_self heq
  · intro q hq heq
    apply hpost
    rw [← heq]
    exact List.mem_map_of_mem hq

theorem Snapshot.eq_of_pid {scan : Snapshot} (he : e ∈ scan.entries) (he' : e' ∈ scan.entries)
    (hp : e.proc.pid = e'.proc.pid) : e = e' :=
  List.inj_on_of_nodup_map scan.nodup he he' hp

theorem refresh_table_of_mem {scan : Snapshot} (he : e ∈ scan.entries) :
    (refresh s scan).cpuTimeTable e.proc.pid = e.proc.totalTime := by
  obtain ⟨pre, post, hs⟩ := List.append_of_mem he
  rw [refresh, searchProcess, hs, List.foldl_append, List.foldl_cons,
    foldl_table_of_ne (Snapshot.pid_ne hs).2]
  exact Function.update_self _ _ _

theorem refresh_table_of_ne {scan : Snapshot} (hp : ∀ e ∈ scan.entries, e.proc.pid ≠ pid) :
    (refresh s scan).cpuTimeTable pid = s.cpuTimeTable pid :=
  foldl_table_of_ne hp (eraseProcessList s)

theorem Called.table (hc : Called h i e s) :
    s.cpuTimeTable e.proc.pid = (before h i).cpuTimeTable e.proc.pid := by
  obtain ⟨pre, post, hs, rfl⟩ := hc
  exact foldl_table_of_ne (Snapshot.pid_ne hs).1 _

theorem Called.exists_iff : (∃ s, Called h i e s) ↔ e ∈ (h i).entries := by
  constructor
  · rintro ⟨s, pre, post, hs, -⟩
    simp [hs]
  · intro he
    obtain ⟨pre, post, hs⟩ := List.append_of_mem he
    exact ⟨_, pre, post, hs, rfl⟩

end Table

/-- The table holds the total time with which a pid was last seen, and 0 for a pid that was never
seen. -/
theorem table_cases (h : ℕ → Snapshot) (i : ℕ) (pid : Fin pidMax) :
    (∃ j e, LastSeen h i pid j e ∧ (before h i).cpuTimeTable pid = e.proc.totalTime) ∨
    (∀ k < i, ∀ q ∈ (h k).entries, q.proc.pid ≠ pid) ∧ (before h i).cpuTimeTable pid = 0 := by
  induction i with
  | zero => exact Or.inr ⟨fun k hk => absurd hk (Nat.not_lt_zero k), rfl⟩
  | succ i ih =>
    by_cases hp : ∃ e ∈ (h i).entries, e.proc.pid = pid
    · obtain ⟨e, he, rfl⟩ := hp
      refine Or.inl ⟨i, e, ⟨Nat.lt_succ_self i, he, rfl, fun k hk hk' => ?_⟩,
        refresh_table_of_mem he⟩
      omega
    · simp only [not_exists, not_and] at hp
      have htable : (before h (i + 1)).cpuTimeTable pid = (before h i).cpuTimeTable pid :=
        refresh_table_of_ne hp
      rw [htable]
      rcases ih with ⟨j, e, hlast, ht⟩ | ⟨hnone, ht⟩
      · refine Or.inl ⟨j, e, ⟨Nat.lt_succ_of_lt hlast.lt, hlast.mem, hlast.owner, ?_⟩, ht⟩
        intro k hk hk'
        rcases Nat.lt_succ_iff_lt_or_eq.mp hk' with hk' | rfl
        · exact hlast.last k hk hk'
        · exact hp
      · refine Or.inr ⟨fun k hk => ?_, ht⟩
        rcases Nat.lt_succ_iff_lt_or_eq.mp hk with hk | rfl
        · exact hnone k hk
        · exact hp

theorem LastSeen.unique {j' : ℕ} (hl : LastSeen h i pid j e) (hl' : LastSeen h i pid j' e') :
    j = j' ∧ e = e' := by
  rcases Nat.lt_trichotomy j j' with hj | rfl | hj
  · exact absurd hl'.owner (hl.last j' hj hl'.lt e' hl'.mem)
  · exact ⟨rfl, Snapshot.eq_of_pid hl.mem hl'.mem (hl.owner.trans hl'.owner.symm)⟩
  · exact absurd hl.owner (hl'.last j hj hl.lt e hl.mem)

theorem LastSeen.table (hl : LastSeen h i pid j e) :
    (before h i).cpuTimeTable pid = e.proc.totalTime := by
  rcases table_cases h i pid with ⟨j', e', hl', ht⟩ | ⟨hnone, -⟩
  · obtain ⟨rfl, rfl⟩ := hl.unique hl'
    exact ht
  · exact absurd hl.owner (hnone j hl.lt e hl.mem)

/-- A refresh takes a difference for the processes whose pid was last seen with a nonzero time. -/
theorem delta_iff {old : BitVec 64} : (∃ s, Called h i e s ∧ usage s e.proc = .delta old) ↔
    e ∈ (h i).entries ∧ ∃ j e', LastSeen h i e.proc.pid j e' ∧ e'.proc.totalTime ≠ 0 ∧
      old = e'.proc.totalTime := by
  have husage : ∀ s, usage s e.proc = .delta old ↔
      s.cpuTimeTable e.proc.pid = old ∧ old ≠ 0 := by
    intro s
    unfold usage
    split
    case isTrue hne =>
      rw [Usage.delta.injEq]
      exact ⟨fun ho => ⟨ho, ho ▸ hne⟩, fun ho => ho.1⟩
    case isFalse hz =>
      rw [not_not] at hz
      simp only [reduceCtorEq, false_iff, not_and, not_not]
      exact fun ho => ho.symm.trans hz
  constructor
  · rintro ⟨s, hc, hu⟩
    obtain ⟨ho, hne⟩ := (husage s).mp hu
    rw [hc.table] at ho
    refine ⟨Called.exists_iff.mp ⟨s, hc⟩, ?_⟩
    rcases table_cases h i e.proc.pid with ⟨j, e', hl, ht⟩ | ⟨-, ht⟩
    · exact ⟨j, e', hl, ht ▸ ho ▸ hne, ho.symm.trans ht⟩
    · exact absurd (ho.symm.trans ht) hne
  · rintro ⟨he, j, e', hl, hne, rfl⟩
    obtain ⟨s, hc⟩ := Called.exists_iff.mpr he
    exact ⟨s, hc, (husage s).mpr ⟨hc.table.trans hl.table, hne⟩⟩

def SameProcess (p q : Proc) : Prop := p.pid = q.pid ∧ p.startTime = q.startTime

/-- Every difference of refresh `i` is taken against the total time of the same process in the
refresh before, and does not wrap. -/
def DeltasSound (h : ℕ → Snapshot) (i : ℕ) : Prop :=
  ∀ e s old, Called h i e s → usage s e.proc = .delta old →
    (∃ j e', j + 1 = i ∧ e' ∈ (h j).entries ∧ SameProcess e'.proc e.proc ∧ old = e'.proc.totalTime) ∧
      old ≤ e.proc.totalTime

/-- A pid of refresh `i` that was last seen with a nonzero time was seen in the refresh before, as
the same process. -/
def PidsKept (h : ℕ → Snapshot) (i : ℕ) : Prop :=
  ∀ e ∈ (h i).entries, ∀ j e', LastSeen h i e.proc.pid j e' → e'.proc.totalTime ≠ 0 →
    j + 1 = i ∧ e'.proc.startTime = e.proc.startTime

/-- The time that is read of a pid does not fall. -/
def TimesKept (h : ℕ → Snapshot) (i : ℕ) : Prop :=
  ∀ e ∈ (h i).entries, ∀ j e', LastSeen h i e.proc.pid j e' → e'.proc.totalTime ≤ e.proc.totalTime

/-- The kernel counts the time of a process upwards. -/
def TimesGrow (h : ℕ → Snapshot) : Prop :=
  ∀ i j, i ≤ j → ∀ e ∈ (h i).entries, ∀ e' ∈ (h j).entries, SameProcess e.proc e'.proc →
    e.proc.utime ≤ e'.proc.utime ∧ e.proc.stime ≤ e'.proc.stime

def TimesFit (h : ℕ → Snapshot) : Prop :=
  ∀ i, ∀ e ∈ (h i).entries, e.proc.utime < 2 ^ 31 ∧ e.proc.stime < 2 ^ 31

theorem totalTime_le {p q : Proc} (hq : q.utime < 2 ^ 31 ∧ q.stime < 2 ^ 31)
    (hle : p.utime ≤ q.utime ∧ p.stime ≤ q.stime) : p.totalTime ≤ q.totalTime := by
  have hp : p.utime < 2 ^ 31 ∧ p.stime < 2 ^ 31 :=
    ⟨hle.1.trans_lt hq.1, hle.2.trans_lt hq.2⟩
  rw [BitVec.le_def, Proc.totalTime, Proc.totalTime, BitVec.toNat_add, BitVec.toNat_add,
    toNat_ulong hp.1, toNat_ulong hp.2, toNat_ulong hq.1, toNat_ulong hq.2]
  omega

/-- A pid that was last seen with the time 0 cannot have a smaller one now. -/
theorem timesKept_of_ne (h' : ∀ e ∈ (h i).entries, ∀ j e', LastSeen h i e.proc.pid j e' →
    e'.proc.totalTime ≠ 0 → e'.proc.totalTime ≤ e.proc.totalTime) : TimesKept h i := by
  intro e he j e' hl
  rcases eq_or_ne e'.proc.totalTime 0 with hz | hne
  · rw [hz]
    exact BitVec.le_def.mpr (Nat.zero_le _)
  · exact h' e he j e' hl hne

theorem deltasSound_iff : DeltasSound h i ↔ PidsKept h i ∧ TimesKept h i := by
  constructor
  · intro hsound
    have hdelta : ∀ e ∈ (h i).entries, ∀ j e', LastSeen h i e.proc.pid j e' →
        e'.proc.totalTime ≠ 0 →
        (j + 1 = i ∧ e'.proc.startTime = e.proc.startTime) ∧
          e'.proc.totalTime ≤ e.proc.totalTime := by
      intro e he j e' hl hne
      obtain ⟨s, hc, hu⟩ := delta_iff.mpr ⟨he, j, e', hl, hne, rfl⟩
      obtain ⟨⟨j', q, hj', hq, hsame, -⟩, hle⟩ := hsound e s _ hc hu
      have hlq : LastSeen h i e.proc.pid j' q := ⟨by omega, hq, hsame.1, fun k hk hk' => by omega⟩
      obtain ⟨rfl, rfl⟩ := hl.unique hlq
      exact ⟨⟨hj', hsame.2⟩, hle⟩
    constructor
    · intro e he j e' hl hne
      exact (hdelta e he j e' hl hne).1
    · apply timesKept_of_ne
      intro e he j e' hl hne
      exact (hdelta e he j e' hl hne).2
  · rintro ⟨hpid, htime⟩ e s old hc hu
    obtain ⟨he, j, e', hl, hne, rfl⟩ := delta_iff.mp ⟨s, hc, hu⟩
    obtain ⟨hj, hstart⟩ := hpid e he j e' hl hne
    exact ⟨⟨j, e', hj, hl.mem, ⟨hl.owner, hstart⟩, rfl⟩, htime e he j e' hl⟩

theorem PidsKept.timesKept (hgrow : TimesGrow h) (hfit : TimesFit h) (hpid : PidsKept h i) :
    TimesKept h i := by
  apply timesKept_of_ne
  intro e he j e' hl hne
  obtain ⟨-, hstart⟩ := hpid e he j e' hl hne
  apply totalTime_le (hfit i e he)
  exact hgrow j i (Nat.le_of_lt hl.lt) e' hl.mem e he ⟨hl.owner, hstart⟩

/-- In every sequence of refreshes, the differences of a refresh are taken against the same process
in the refresh before, and do not wrap, exactly when each pid that was last seen with a nonzero time
was seen in the refresh before as the same process and its time does not fall. While the counters of
the kernel grow and fit an `int`, the pids alone decide. -/
theorem deltas_same_process (h : ℕ → Snapshot) :
    (∀ i, DeltasSound h i ↔ PidsKept h i ∧ TimesKept h i) ∧
    (TimesGrow h → TimesFit h → ∀ i, DeltasSound h i ↔ PidsKept h i) := by
  refine ⟨fun i => deltasSound_iff, fun hgrow hfit i => ?_⟩
  rw [deltasSound_iff]
  exact and_iff_left_of_imp fun hpid => hpid.timesKept hgrow hfit

def single (p : ℕ → Proc) (i : ℕ) : Snapshot := ⟨[⟨p i, true⟩], List.nodup_singleton _⟩

/-- A process that stays. -/
theorem deltas_same_process_single :
    DeltasSound (single fun i => ⟨7, 100, min i 9, 5⟩) 3 := by
  refine ((deltas_same_process _).2 ?_ ?_ 3).mpr ?_
  · rintro i j hij e he e' he' -
    obtain rfl := List.mem_singleton.mp he
    obtain rfl := List.mem_singleton.mp he'
    exact ⟨min_le_min_right 9 hij, le_rfl⟩
  · rintro i e he
    obtain rfl := List.mem_singleton.mp he
    dsimp only
    omega
  · rintro e he j e' hl -
    obtain rfl := List.mem_singleton.mp he
    obtain rfl := List.mem_singleton.mp hl.mem
    refine ⟨?_, rfl⟩
    by_contra hj
    exact hl.last 2 (by have := hl.lt; omega) (by decide) _ (List.mem_singleton.mpr rfl) rfl

/-- A new process with the pid of one that has used 50 ticks: the difference is taken against the old
process and wraps. -/
theorem deltas_pid_reused :
    ¬ DeltasSound (single fun i => if i = 0 then ⟨7, 100, 50, 0⟩ else ⟨7, 200, 1, 0⟩) 1 ∧
    (1 : BitVec 64) - 50 = 18446744073709551567 := by
  refine ⟨fun hsound => ?_, by decide⟩
  have hle := (hsound ⟨⟨7, 200, 1, 0⟩, true⟩ _ 50 ⟨[], [], rfl, rfl⟩ (by decide)).2
  revert hle
  decide

end OperatingSystem.Mytop
