import OperatingSystem.Myps.PrintPs
import OperatingSystem.Mytop.CpuTime
import OperatingSystem.Procfs.Cmdline

/-! # The capacity of the tables

The stores of `SearchProcess`, `AddProcessList` and `PrintPS` to arrays of a fixed size,
none of which is tested. A store outside an array has no result, so a scan or a table
that has one has stayed inside all of them.
-/

namespace OperatingSystem.Procfs

open Mytop (pidMax)

/-- How far `AddProcessList` gets before a file is missing. -/
inductive Progress where
  | unread
  | counted
  | complete
  deriving DecidableEq

/-- A pid directory that is added: the record without its command, and the bytes of `cmdline`. -/
structure PidDir where
  proc : MyProc
  file : List Char
  progress : Progress
  cmd_lt : proc.cmd.length < tokenLen

def pushProc (procList : List MyProc) (p : MyProc) : Option (List MyProc) :=
  if procList.length < processMax then some (procList ++ [p]) else none

def storeTime (cpuTimeTable : ℕ → ℕ) (d : PidDir) : Option (ℕ → ℕ) :=
  if d.progress = .unread then some cpuTimeTable
  else if d.proc.pid < pidMax then some (Function.update cpuTimeTable d.proc.pid d.proc.runtime)
  else none

/-- `AddProcessList` of `myps.c`, and of `mytop.c` but for the table of the times. -/
def addProcess (procList : List MyProc) (d : PidDir) : Option (List MyProc) :=
  if d.progress = .complete then do
    let command ← command d.proc.cmd d.file
    pushProc procList { d.proc with command }
  else some procList

structure Tables where
  procList : List MyProc
  cpuTimeTable : ℕ → ℕ

def addProcessTime (s : Tables) (d : PidDir) : Option Tables := do
  let cpuTimeTable ← storeTime s.cpuTimeTable d
  let procList ← addProcess s.procList d
  some ⟨procList, cpuTimeTable⟩

/-- `SearchProcess` of `myps.c`, on the directories that its options select. -/
def searchMyps (dirs : List PidDir) : Option (List MyProc) := dirs.foldlM addProcess []

/-- The scans of `mytop.c`, each of which starts with an empty list. -/
def searchMytop (cpuTimeTable : ℕ → ℕ) : List (List PidDir) → Option (ℕ → ℕ)
  | [] => some cpuTimeTable
  | dirs :: scans => do
    let s ← dirs.foldlM addProcessTime ⟨[], cpuTimeTable⟩
    searchMytop s.cpuTimeTable scans

/-- The `strcat` calls of a line of `PrintPS`. -/
def line (segments : List (List Char)) : Option (List Char) :=
  segments.foldlM (strcat bufferSize) []

def printHeader (o : Myps.Options) (procList : List MyProc) : Option (List (List Char)) :=
  if o.hOption then some [] else (line (Myps.header o procList)).map fun l => [l]

/-- The lines of `PrintPS` before they are cut. -/
def printPs (o : Myps.Options) (procList : List MyProc) : Option (List (List Char)) := do
  let head ← printHeader o procList
  let rows ← (Myps.shown o procList).mapM fun p => line (Myps.row o procList p)
  some (head ++ rows)

/-- `myps.c` on the directories that its options select. -/
def myps (o : Myps.Options) (dirs : List PidDir) : Option (List (List Char)) := do
  let procList ← searchMyps dirs
  printPs o procList

/-- The record with its command, where that fits. -/
def PidDir.resolved (d : PidDir) : MyProc :=
  { d.proc with command := if shown d.file = [] then bracketed d.proc.cmd else shown d.file }

def added (dirs : List PidDir) : List MyProc :=
  (dirs.filter fun d => d.progress = .complete).map PidDir.resolved

/-- The commands of a scan fit, and there are not too many processes. -/
structure Fits (dirs : List PidDir) : Prop where
  processes : (added dirs).length ≤ processMax
  commands : ∀ d ∈ dirs, d.progress = .complete → (visible d.file).length < cmdLen

variable {dirs : List PidDir} {d : PidDir} {procList : List MyProc} {o : Myps.Options}

section Search

theorem command_resolved (d : PidDir) (h : (visible d.file).length < cmdLen) :
    command d.proc.cmd d.file = some d.resolved.command := command_of_lt d.cmd_lt h

theorem added_cons (d : PidDir) (dirs : List PidDir) : added (d :: dirs) =
    if d.progress = .complete then d.resolved :: added dirs else added dirs := by
  by_cases hd : d.progress = .complete <;> simp [added, hd]

theorem addProcess_complete (hd : d.progress = .complete) : addProcess procList d =
    if (visible d.file).length < cmdLen ∧ procList.length < processMax then
      some (procList ++ [d.resolved]) else none := by
  rw [addProcess, if_pos hd]
  rcases Nat.lt_or_ge (visible d.file).length cmdLen with hfile | hfile
  · rw [command_resolved d hfile]
    change pushProc procList d.resolved = _
    simp only [pushProc, hfile, true_and]
  · rw [command_of_le hfile, if_neg fun h => Nat.not_lt.mpr hfile h.1]
    rfl

/-- A scan succeeds exactly when the list has room for its processes and their commands fit. -/
theorem foldlM_addProcess (hroom : procList.length ≤ processMax) :
    dirs.foldlM addProcess procList =
      if procList.length + (added dirs).length ≤ processMax ∧
        ∀ d ∈ dirs, d.progress = .complete → (visible d.file).length < cmdLen
      then some (procList ++ added dirs) else none := by
  induction dirs generalizing procList with
  | nil => simp [added, hroom]
  | cons d dirs ih =>
    rw [List.foldlM_cons, added_cons]
    by_cases hd : d.progress = .complete
    · rw [addProcess_complete hd, if_pos hd]
      by_cases hfits : (visible d.file).length < cmdLen ∧ procList.length < processMax
      · have hlen : (procList ++ [d.resolved]).length = procList.length + 1 := List.length_append
        rw [if_pos hfits]
        change dirs.foldlM addProcess (procList ++ [d.resolved]) = _
        rw [ih (by rw [hlen]; exact hfits.2), hlen, List.append_assoc, List.singleton_append]
        simp only [List.forall_mem_cons, hd, hfits.1, true_imp_iff, true_and, List.length_cons,
          Nat.add_right_comm _ 1, Nat.add_assoc]
      · rw [if_neg hfits, if_neg]
        · rfl
        · rintro ⟨hlen, hfiles⟩
          rw [List.length_cons] at hlen
          exact hfits ⟨hfiles d List.mem_cons_self hd, by omega⟩
    · have hskip : addProcess procList d = some procList := if_neg hd
      rw [hskip, if_neg hd]
      change dirs.foldlM addProcess procList = _
      rw [ih hroom]
      simp only [List.forall_mem_cons, hd, false_imp_iff, true_and]

theorem searchMyps_of_fits (h : Fits dirs) : searchMyps dirs = some (added dirs) := by
  rw [searchMyps, foldlM_addProcess (Nat.zero_le _), List.length_nil, Nat.zero_add,
    if_pos ⟨h.processes, h.commands⟩, List.nil_append]

theorem searchMyps_of_not_fits (h : ¬ Fits dirs) : searchMyps dirs = none := by
  rw [searchMyps, foldlM_addProcess (Nat.zero_le _), List.length_nil, Nat.zero_add, if_neg]
  exact fun hfits => h ⟨hfits.1, hfits.2⟩

theorem isSome_searchMyps (dirs : List PidDir) : (searchMyps dirs).isSome ↔ Fits dirs := by
  by_cases h : Fits dirs
  · simp [searchMyps_of_fits h, h]
  · simp [searchMyps_of_not_fits h, h]

theorem isSome_foldlM_addProcessTime (s : Tables) (dirs : List PidDir) :
    (dirs.foldlM addProcessTime s).isSome ↔
      (∀ d ∈ dirs, d.progress ≠ .unread → d.proc.pid < pidMax) ∧
        (dirs.foldlM addProcess s.procList).isSome := by
  induction dirs generalizing s with
  | nil => simp
  | cons d dirs ih =>
    rw [List.foldlM_cons, List.foldlM_cons, List.forall_mem_cons]
    by_cases hpid : d.progress ≠ .unread → d.proc.pid < pidMax
    · obtain ⟨table, htable⟩ : ∃ table, storeTime s.cpuTimeTable d = some table := by
        by_cases hd : d.progress = .unread
        · exact ⟨_, if_pos hd⟩
        · exact ⟨_, (if_neg hd).trans (if_pos (hpid hd))⟩
      rw [addProcessTime, htable]
      cases hadd : addProcess s.procList d with
      | none => simp
      | some l =>
        change (dirs.foldlM addProcessTime ⟨l, table⟩).isSome ↔ _
        rw [ih]
        exact and_congr_left' (and_iff_right hpid).symm
    · obtain ⟨hd, hge⟩ := Classical.not_imp.mp hpid
      have htable : storeTime s.cpuTimeTable d = none := (if_neg hd).trans (if_neg hge)
      rw [addProcessTime, htable]
      apply iff_of_false
      · simp
      · rintro ⟨⟨h, -⟩, -⟩
        exact hpid h

theorem isSome_searchMytop (scans : List (List PidDir)) (cpuTimeTable : ℕ → ℕ) :
    (searchMytop cpuTimeTable scans).isSome ↔ ∀ dirs ∈ scans, Fits dirs ∧
      ∀ d ∈ dirs, d.progress ≠ .unread → d.proc.pid < pidMax := by
  induction scans generalizing cpuTimeTable with
  | nil => simp [searchMytop]
  | cons dirs scans ih =>
    have hscan := isSome_foldlM_addProcessTime ⟨[], cpuTimeTable⟩ dirs
    rw [List.forall_mem_cons, ← isSome_searchMyps, searchMyps, and_comm (a := Option.isSome _ = true),
      ← hscan, searchMytop]
    cases dirs.foldlM addProcessTime ⟨[], cpuTimeTable⟩ with
    | none => simp
    | some s => simp [ih]

end Search

section Lines

theorem isSome_mapM {α β : Type*} (f : α → Option β) (l : List α) :
    (l.mapM f).isSome ↔ ∀ x ∈ l, (f x).isSome := by
  induction l with
  | nil => simp
  | cons x l ih =>
    rw [List.mapM_cons, List.forall_mem_cons, ← ih]
    cases f x <;> cases l.mapM f <;> simp

theorem foldlM_strcat (segments : List (List Char)) (buf : List Char) (h : buf.length < bufferSize) :
    segments.foldlM (strcat bufferSize) buf = strcat bufferSize buf segments.flatten := by
  induction segments generalizing buf with
  | nil => simp [strcat, h]
  | cons s segments ih =>
    rw [List.foldlM_cons, List.flatten_cons, ← strcat_strcat]
    apply Option.bind_congr
    intro t ht
    exact ih t (length_of_strcat ht)

theorem isSome_line (segments : List (List Char)) :
    (line segments).isSome ↔ (segments.map List.length).sum < bufferSize := by
  rw [line, foldlM_strcat _ _ (by decide), strcat, ← List.length_flatten]
  split <;> simp_all

def lineSpace (o : Myps.Options) (space : Myps.Column → ℕ) (last : List Char) : ℕ :=
  (((Myps.userColumns ++ Myps.middleColumns).filter (Myps.printed o)).map space).sum + 2 +
    last.length

theorem sum_segments {cell : Myps.Column → List Char} {space : Myps.Column → ℕ} (last : List Char)
    (h : ∀ k ∈ Myps.userColumns ++ Myps.middleColumns, Myps.printed o k = true →
      (cell k).length = space k) :
    ((Myps.segments o cell ++ [last]).map List.length).sum = lineSpace o space last := by
  have hspace : ((Myps.userColumns ++ Myps.middleColumns).filter (Myps.printed o)).map space =
      ((Myps.userColumns ++ Myps.middleColumns).filter (Myps.printed o)).map
        fun k => (cell k).length := by
    apply List.map_congr_left
    intro k hk
    obtain ⟨hcolumn, hprinted⟩ := List.mem_filter.mp hk
    exact (h k hcolumn hprinted).symm
  rw [lineSpace, hspace, Myps.segments]
  simp only [List.map_append, List.map_cons, List.map_nil, List.map_map, List.sum_append,
    List.sum_cons, List.sum_nil, List.filter_append, Function.comp_def]
  simp
  omega

structure LinesFit (o : Myps.Options) (procList : List MyProc) : Prop where
  header : o.hOption = false → lineSpace o (Myps.titleSpace o procList) (Myps.lastTitle o) < bufferSize
  rows : ∀ p ∈ Myps.shown o procList,
    lineSpace o (Myps.textSpace o procList p) (Myps.lastText o p) < bufferSize

theorem isSome_header : (line (Myps.header o procList)).isSome ↔
    lineSpace o (Myps.titleSpace o procList) (Myps.lastTitle o) < bufferSize := by
  rw [isSome_line, Myps.header, sum_segments]
  exact fun k hk hprinted => Myps.length_title hk hprinted

theorem isSome_printHeader : (printHeader o procList).isSome ↔ (o.hOption = false →
    lineSpace o (Myps.titleSpace o procList) (Myps.lastTitle o) < bufferSize) := by
  rw [printHeader, ← isSome_header]
  cases o.hOption <;> simp

theorem isSome_row {p : MyProc} (hp : p ∈ procList) : (line (Myps.row o procList p)).isSome ↔
    lineSpace o (Myps.textSpace o procList p) (Myps.lastText o p) < bufferSize := by
  rw [isSome_line, Myps.row, sum_segments]
  exact fun k hk hprinted => Myps.length_text hp hk hprinted

theorem isSome_printPs : (printPs o procList).isSome ↔ LinesFit o procList := by
  have hrows : ((Myps.shown o procList).mapM fun p => line (Myps.row o procList p)).isSome ↔
      ∀ p ∈ Myps.shown o procList,
        lineSpace o (Myps.textSpace o procList p) (Myps.lastText o p) < bufferSize := by
    rw [isSome_mapM]
    exact forall₂_congr fun p hp => isSome_row (List.mem_of_mem_filter hp)
  have hboth : (printPs o procList).isSome ↔ (printHeader o procList).isSome ∧
      ((Myps.shown o procList).mapM fun p => line (Myps.row o procList p)).isSome := by
    rw [printPs]
    cases printHeader o procList <;>
      cases (Myps.shown o procList).mapM fun p => line (Myps.row o procList p) <;> simp
  rw [hboth, hrows, isSome_printHeader]
  constructor
  · rintro ⟨hheader, hrow⟩
    exact ⟨hheader, hrow⟩
  · rintro ⟨hheader, hrow⟩
    exact ⟨hheader, hrow⟩

end Lines

/-- All stores of the scans of `mytop` stay in their arrays if and only if every scan adds at most
`PROCESS_MAX` processes with commands below `CMD_LEN` and reads only pids below `PID_MAX`, and those
of `myps` if and only if its scan does so but for the pids and its lines are shorter than
`BUFFER_SIZE`. -/
theorem stores_inside_iff (o : Myps.Options) (dirs : List PidDir) (scans : List (List PidDir)) :
    ((searchMytop (fun _ => 0) scans).isSome ↔ ∀ dirs ∈ scans, Fits dirs ∧
      ∀ d ∈ dirs, d.progress ≠ .unread → d.proc.pid < pidMax) ∧
    ((myps o dirs).isSome ↔ Fits dirs ∧ LinesFit o (added dirs)) := by
  refine ⟨isSome_searchMytop scans _, ?_⟩
  rw [← isSome_printPs, myps]
  by_cases h : Fits dirs
  · rw [searchMyps_of_fits h]
    exact (and_iff_right h).symm
  · rw [searchMyps_of_not_fits h]
    exact iff_of_false (by simp) fun hfits => h hfits.1

def pidDir (pid : ℕ) : PidDir where
  proc := { eraseProcess with pid }
  file := []
  progress := .complete
  cmd_lt := (by decide : 0 < tokenLen)

/-- The pid 32768, and a command line of 1024 bytes. -/
theorem stores_outside : searchMytop (fun _ => 0) [[pidDir 32768]] = none ∧
    searchMyps [{ pidDir 1 with file := List.replicate 1024 'a' }] = none ∧
    ¬ ∀ scans : List (List PidDir), (searchMytop (fun _ => 0) scans).isSome := by
  have hpid : searchMytop (fun _ => 0) [[pidDir 32768]] = none := by decide
  refine ⟨hpid, ?_, ?_⟩
  · apply searchMyps_of_not_fits
    intro hfits
    have hvisible := hfits.commands _ List.mem_cons_self rfl
    have hshown : shown (List.replicate 1024 'a' ++ []) = List.replicate 1024 'a' ++ shown [] :=
      shown_append fun h => absurd (List.eq_of_mem_replicate h) (by decide)
    rw [List.append_nil] at hshown
    rw [← length_shown, hshown, List.length_append, List.length_replicate] at hvisible
    exact absurd hvisible (by decide)
  · intro h
    exact absurd (h [[pidDir 32768]]) (by rw [hpid]; decide)

end OperatingSystem.Procfs
