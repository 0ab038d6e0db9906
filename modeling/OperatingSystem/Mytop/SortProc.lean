import Mathlib.Data.Prod.Lex
import OperatingSystem.BubbleSort
import OperatingSystem.Mytop.EventLoop
import OperatingSystem.Procfs.Process

/-! # The order of the process rows

`SortProc` and `isGreater` of `mytop.c`. The comparison negates its result when the order
is reversed, except where it returns early on equal values, so pids that break ties
stay in ascending order. The rates are taken as exact rationals.
-/

namespace OperatingSystem.Mytop

open BubbleSort

def isGreater (sortMode : SortMode) (reverseMode : Bool) (a b : Procfs.MyProc) : Bool :=
  let result (value : Bool) := if !reverseMode then value else !value
  match sortMode with
  | .cpu =>
    if a.cpu < b.cpu then result true
    else if a.cpu > b.cpu then result false
    else decide (a.pid > b.pid)
  | .mem =>
    if a.mem < b.mem then result true
    else if a.mem > b.mem then result false
    else if a.rss < b.rss then result true
    else if a.rss > b.rss then result false
    else decide (a.pid > b.pid)
  | .pid => result (a.pid > b.pid)
  | .time =>
    if a.runtime < b.runtime then result true
    else if a.runtime > b.runtime then result false
    else decide (a.pid > b.pid)

/-- The entries of `sorted` that `SortProc` leaves for the entries of `procList`. -/
def sortProc (sortMode : SortMode) (reverseMode : Bool) (procList : List Procfs.MyProc) :
    List Procfs.MyProc :=
  sort (isGreater sortMode reverseMode) procList

/-- A quantity in descending order, or in ascending order when it is reversed. -/
def descending (reverseMode : Bool) (q : ℚ) : ℚ := if reverseMode then q else -q

/-- What the rows are ordered by in a mode, with the pid last. -/
def key (sortMode : SortMode) (reverseMode : Bool) (p : Procfs.MyProc) : ℚ ×ₗ ℚ ×ₗ ℤ :=
  match sortMode with
  | .cpu => toLex (descending reverseMode p.cpu, toLex (0, p.pid))
  | .mem => toLex (descending reverseMode p.mem, toLex (descending reverseMode p.rss, p.pid))
  | .pid => toLex (0, toLex (0, if reverseMode then -(p.pid : ℤ) else p.pid))
  | .time => toLex (descending reverseMode p.runtime, toLex (0, p.pid))

variable {sortMode : SortMode} {reverseMode : Bool} {procList other : List Procfs.MyProc}

theorem descending_lt (r : Bool) (x y : ℚ) :
    descending r x < descending r y ↔ if r then x < y else y < x := by
  cases r <;> simp [descending]

theorem descending_inj (r : Bool) (x y : ℚ) : descending r x = descending r y ↔ x = y := by
  cases r <;> simp [descending]

theorem pid_eq_of_key {a b : Procfs.MyProc}
    (h : key sortMode reverseMode a = key sortMode reverseMode b) : a.pid = b.pid := by
  cases sortMode <;> cases reverseMode <;> simp [key] at h <;> omega

/-- One level of `isGreater`: the greater value comes later, or is in front when reversed, and equal
values leave the comparison to the next level. -/
theorem level_iff {β : Type*} [LinearOrder β] (r : Bool) (x y : β) (next : Bool) :
    (if x < y then if !r then true else !true
      else if x > y then if !r then false else !false else next) = true ↔
      (if r then y < x else x < y) ∨ x = y ∧ next = true := by
  rcases lt_trichotomy x y with h | rfl | h
  · cases r <;> simp [h, h.ne, h.not_gt]
  · cases r <;> simp
  · cases r <;> simp [h, h.ne', h.not_gt]

theorem isGreater_iff {a b : Procfs.MyProc}
    (h : key sortMode reverseMode a ≠ key sortMode reverseMode b) :
    isGreater sortMode reverseMode a b = true ↔
      key sortMode reverseMode b < key sortMode reverseMode a := by
  cases sortMode with
  | cpu =>
    simp only [isGreater, level_iff]
    simp [key, Prod.Lex.toLex_lt_toLex, descending_lt, descending_inj, eq_comm]
  | mem =>
    simp only [isGreater, level_iff]
    simp [key, Prod.Lex.toLex_lt_toLex, descending_lt, descending_inj, eq_comm]
  | pid =>
    have hp : a.pid ≠ b.pid := by
      rintro hp
      exact h (by simp [key, hp])
    cases reverseMode <;> simp [isGreater, key, Prod.Lex.toLex_lt_toLex]
    omega
  | time =>
    simp only [isGreater, level_iff]
    simp [key, Prod.Lex.toLex_lt_toLex, descending_lt, descending_inj, eq_comm]

theorem compares (hn : (procList.map Procfs.MyProc.pid).Nodup) :
    Compares (isGreater sortMode reverseMode) (key sortMode reverseMode) procList where
  nodup := by
    rw [List.Nodup, List.pairwise_map] at hn ⊢
    exact hn.imp fun hne hkey => hne (pid_eq_of_key hkey)
  gt_iff a _ b _ h := isGreater_iff h

/-- `SortProc` leaves a permutation of the processes in strictly increasing order of the key, the
same for every initial order. -/
theorem sortProc_canonical (sortMode : SortMode) (reverseMode : Bool)
    (hn : (procList.map Procfs.MyProc.pid).Nodup) :
    (sortProc sortMode reverseMode procList).Perm procList ∧
      (sortProc sortMode reverseMode procList).Pairwise
        (fun a b => key sortMode reverseMode a < key sortMode reverseMode b) ∧
      ∀ other, other.Perm procList →
        sortProc sortMode reverseMode other = sortProc sortMode reverseMode procList := by
  have hc : Compares (isGreater sortMode reverseMode) (key sortMode reverseMode) procList :=
    compares hn
  refine ⟨sort_perm _ _, sort_pairwise hc, ?_⟩
  intro other ho
  exact sort_eq_of_perm hc ho

def idle (pid : ℕ) : Procfs.MyProc := { Procfs.eraseProcess with pid }

/-- Two idle processes by `%CPU` in reversed order: their pids stay in ascending order. -/
theorem sortProc_canonical_idle : sortProc .cpu true [idle 7, idle 1] = [idle 1, idle 7] ∧
    (sortProc .cpu true [idle 1, idle 7]).Pairwise fun a b => key .cpu true a < key .cpu true b := by
  have hn : ([idle 1, idle 7].map Procfs.MyProc.pid).Nodup := by decide
  obtain ⟨-, hp, heq⟩ := sortProc_canonical .cpu true hn
  have hsorted : sortProc .cpu true [idle 1, idle 7] = [idle 1, idle 7] := by
    simp [sortProc, BubbleSort.sort, BubbleSort.passes, BubbleSort.pass, BubbleSort.exchange,
      isGreater, idle, Procfs.eraseProcess]
  refine ⟨?_, hp⟩
  rw [heq [idle 7, idle 1] (List.Perm.swap _ _ _), hsorted]

end OperatingSystem.Mytop
