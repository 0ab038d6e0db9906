import Mathlib.Logic.Function.Iterate
import OperatingSystem.Libc
import OperatingSystem.Lines
import OperatingSystem.Procfs.Cmdline

/-! # The fields of `/proc/cpuinfo`

`ReadCpuInfo` of `mylscpu.c`. It finds a line by its number, but what it counts are the
calls of `fgets`, and a line that is longer than the buffer takes several of them. All
fields come from their own lines exactly when no line up to the last of them does so.
-/

namespace OperatingSystem.Mylscpu

open Libc Lines
open Procfs (nul)

abbrev bufferSize : ℕ := 1024

/-- The rows of `/proc/cpuinfo`. -/
def cpuinfoVenderId : ℕ := 2
def cpuinfoCpuFamily : ℕ := 3
def cpuinfoModel : ℕ := 4
def cpuinfoModelName : ℕ := 5
def cpuinfoStepping : ℕ := 6
def cpuinfoCpuMhz : ℕ := 8
def cpuinfoSiblings : ℕ := 11
def cpuinfoCpuCores : ℕ := 13
def cpuinfoFlags : ℕ := 20
def cpuinfoCpuBogomips : ℕ := 22
def cpuinfoAddrSize : ℕ := 26

/-- What has no defined result: a read outside of an array, an `int` that overflows, and a division
by zero. -/
inductive Fault where
  | outside
  | overflow
  | division
  deriving DecidableEq, Repr

/-- The arrays of `info` that are read from files, without the zeros that fill them up, and its
numbers. -/
structure CpuInfo where
  addrsize : List Char
  online : List Char
  venderid : List Char
  cpufamily : List Char
  model : List Char
  modelname : List Char
  stepping : List Char
  speed : List Char
  bogomips : List Char
  vulnerability : List (List Char)
  flags : List Char
  numofcpu : ℕ
  threads : ℕ
  cores : ℕ
  sockets : ℕ
  siblings : ℕ
  deriving DecidableEq, Repr

def info : CpuInfo where
  addrsize := []
  online := []
  venderid := []
  cpufamily := []
  model := []
  modelname := []
  stepping := []
  speed := []
  bogomips := []
  vulnerability := List.replicate 9 []
  flags := []
  numofcpu := 0
  threads := 0
  cores := 0
  sockets := 0
  siblings := 0

/-- `fgets` into `buf`, after `memset`: the buffer and what is left of the file. -/
def fgets (fp : List Char) : List Char × List Char := gets '\n' (bufferSize - 1) fp

def text (a : List Char) : List Char := a.takeWhile (· ≠ nul)

/-- The variables `fp`, `buf` and `cnt` of `ReadCpuInfo`. -/
structure Reader where
  fp : List Char
  buf : List Char
  cnt : ℕ
  deriving DecidableEq, Repr

def rewind (file : List Char) : Reader := ⟨file, [], 0⟩

def nextRow (r : Reader) : Reader := ⟨(fgets r.fp).2, (fgets r.fp).1, r.cnt + 1⟩

/-- The loop `while (cnt < row)`. -/
def readTo (row : ℕ) (r : Reader) : Reader := nextRow^[row - r.cnt] r

/-- The text at `ptr`: from the second place after the first colon, or all of `buf` without one. -/
def value (buf : List Char) : Except Fault (List Char) :=
  match (text buf).idxOf? ':' with
  | none => .ok (text buf)
  | some i => if i + 2 < bufferSize then .ok (text (buf.drop (i + 2))) else .error .outside

/-- The loop to a row and the search for its value, the same for every field. -/
def readRow (row : ℕ) (r : Reader) : Except Fault (List Char × Reader) := do
  let ptr ← value (readTo row r).buf
  pure (ptr, readTo row r)

def processor : List Char := ['p', 'r', 'o', 'c', 'e', 's', 's', 'o', 'r']

def countCpu (numOfCpu : ℕ) (buf : List Char) : Except Fault ℕ :=
  if processor <+: buf then
    if numOfCpu < 2 ^ 31 - 1 then .ok (numOfCpu + 1) else .error .overflow
  else .ok numOfCpu

/-- The loop `while (fgets(buf, BUFFER_SIZE, fp) != NULL)` over the whole file. -/
def countCpus (file : List Char) : Except Fault ℕ :=
  (pieces '\n' (bufferSize - 1) file).foldlM countCpu 0

/-- `ReadCpuInfo` up to the divisions. -/
def assignFields (info : CpuInfo) (file : List Char) : Except Fault CpuInfo := do
  let numofcpu ← countCpus file
  let (venderid, r) ← readRow cpuinfoVenderId (rewind file)
  let (cpufamily, r) ← readRow cpuinfoCpuFamily r
  let (model, r) ← readRow cpuinfoModel r
  let (modelname, r) ← readRow cpuinfoModelName r
  let (stepping, r) ← readRow cpuinfoStepping r
  let (speed, r) ← readRow cpuinfoCpuMhz r
  let (siblings, r) ← readRow cpuinfoSiblings r
  let (cores, r) ← readRow cpuinfoCpuCores r
  let (flags, r) ← readRow cpuinfoFlags r
  let (bogomips, r) ← readRow cpuinfoCpuBogomips r
  let (addrsize, _) ← readRow cpuinfoAddrSize r
  pure { info with
    numofcpu, venderid, cpufamily, model, modelname, stepping, speed, flags, bogomips, addrsize
    siblings := sscanf siblings info.siblings
    cores := sscanf cores info.cores }

/-- `info.threads` and `info.sockets` -/
def divide (info : CpuInfo) : Except Fault CpuInfo :=
  if info.cores = 0 ∨ info.siblings / info.cores = 0 then .error .division
  else .ok { info with
    threads := info.siblings / info.cores
    sockets := info.numofcpu / (info.siblings / info.cores) / info.cores }

def readCpuInfo (info : CpuInfo) (file : List Char) : Except Fault CpuInfo := do
  let info ← assignFields info file
  divide info

def bufferAt (file : List Char) (row : ℕ) : List Char :=
  (pieces '\n' (bufferSize - 1) file)[row - 1]?.getD []

def readerAt (file : List Char) : ℕ → Reader
  | 0 => rewind file
  | row + 1 => ⟨((pieces '\n' (bufferSize - 1) file).drop (row + 1)).flatten,
      bufferAt file (row + 1), row + 1⟩

def rowValue (file : List Char) (row : ℕ) : Except Fault (List Char) := value (bufferAt file row)

/-- A text whose first rows, up to the last one that is read, are of the form `key: val row`. The
tabs before the colon belong to the key, and the newline to the value. -/
def KeyValueText (file : List Char) (val : ℕ → List Char) : Prop :=
  ∀ row, 0 < row → row ≤ cpuinfoAddrSize → ∃ key, ':' ∉ key ∧ nul ∉ key ∧ nul ∉ val row ∧
    (lines '\n' file)[row - 1]? = some (key ++ ':' :: ' ' :: val row)

def cpuinfoRows : List ℕ :=
  [cpuinfoVenderId, cpuinfoCpuFamily, cpuinfoModel, cpuinfoModelName, cpuinfoStepping,
    cpuinfoCpuMhz, cpuinfoSiblings, cpuinfoCpuCores, cpuinfoFlags, cpuinfoCpuBogomips,
    cpuinfoAddrSize]

def fieldsOf (val : ℕ → List Char) (numofcpu : ℕ) : CpuInfo :=
  { info with
    venderid := val cpuinfoVenderId
    cpufamily := val cpuinfoCpuFamily
    model := val cpuinfoModel
    modelname := val cpuinfoModelName
    stepping := val cpuinfoStepping
    speed := val cpuinfoCpuMhz
    siblings := sscanf (val cpuinfoSiblings) 0
    cores := sscanf (val cpuinfoCpuCores) 0
    flags := val cpuinfoFlags
    bogomips := val cpuinfoCpuBogomips
    addrsize := val cpuinfoAddrSize
    numofcpu }

/-- Every row is read from its own line, and the fields are the values of their rows. -/
structure Assigned (file : List Char) (val : ℕ → List Char) : Prop where
  rows : ∀ row ∈ cpuinfoRows, readTo row (rewind file) =
    ⟨((lines '\n' file).drop row).flatten, (lines '\n' file)[row - 1]?.getD [], row⟩
  fields : assignFields info file =
    .ok (fieldsOf val ((lines '\n' file).countP (processor <+: ·)))

variable {file : List Char} {row j : ℕ}

section Reader

theorem readerAt_fp (file : List Char) (row : ℕ) :
    (readerAt file row).fp = ((pieces '\n' (bufferSize - 1) file).drop row).flatten := by
  cases row with
  | zero =>
    rw [List.drop_zero, flatten_pieces (by decide)]
    rfl
  | succ row => rfl

theorem readerAt_cnt (file : List Char) (row : ℕ) : (readerAt file row).cnt = row := by
  cases row <;> rfl

theorem readerAt_buf (h : 0 < row) : (readerAt file row).buf = bufferAt file row := by
  cases row with
  | zero => exact absurd h (Nat.lt_irrefl 0)
  | succ row => rfl

theorem nextRow_readerAt (file : List Char) (row : ℕ) :
    nextRow (readerAt file row) = readerAt file (row + 1) := by
  rw [nextRow, fgets, readerAt_fp, gets_drop_pieces '\n' (by decide), readerAt_cnt]
  rfl

theorem readTo_readerAt (h : j ≤ row) : readTo row (readerAt file j) = readerAt file row := by
  obtain ⟨n, rfl⟩ := Nat.exists_eq_add_of_le h
  rw [readTo, readerAt_cnt, Nat.add_sub_cancel_left]
  induction n with
  | zero => rfl
  | succ n ih =>
    rw [Function.iterate_succ_apply', ih (Nat.le_add_right j n), nextRow_readerAt]
    rfl

theorem readTo_rewind (file : List Char) (row : ℕ) :
    readTo row (rewind file) = readerAt file row := readTo_readerAt (Nat.zero_le row)

theorem readRow_readerAt (h : j ≤ row) (hrow : 0 < row) : readRow row (readerAt file j) =
    (do let ptr ← rowValue file row
        pure (ptr, readerAt file row)) := by
  rw [readRow, readTo_readerAt h, readerAt_buf hrow]
  rfl

theorem assignFields_eq (info : CpuInfo) (file : List Char) : assignFields info file = (do
    let numofcpu ← countCpus file
    let venderid ← rowValue file cpuinfoVenderId
    let cpufamily ← rowValue file cpuinfoCpuFamily
    let model ← rowValue file cpuinfoModel
    let modelname ← rowValue file cpuinfoModelName
    let stepping ← rowValue file cpuinfoStepping
    let speed ← rowValue file cpuinfoCpuMhz
    let siblings ← rowValue file cpuinfoSiblings
    let cores ← rowValue file cpuinfoCpuCores
    let flags ← rowValue file cpuinfoFlags
    let bogomips ← rowValue file cpuinfoCpuBogomips
    let addrsize ← rowValue file cpuinfoAddrSize
    pure { info with
      numofcpu, venderid, cpufamily, model, modelname, stepping, speed, flags, bogomips, addrsize
      siblings := sscanf siblings info.siblings
      cores := sscanf cores info.cores }) := by
  have hstart : rewind file = readerAt file 0 := rfl
  rw [assignFields, hstart]
  simp (disch := decide) only [readRow_readerAt, bind_assoc, pure_bind]

end Reader

section Fields

variable {val : ℕ → List Char}

theorem cpuinfoRows_bounds : ∀ row ∈ cpuinfoRows, 0 < row ∧ row ≤ cpuinfoAddrSize := by decide

theorem length_le_of_fits (h : ∀ l ∈ (lines '\n' file).take cpuinfoAddrSize, l.length < bufferSize) :
    ∀ l ∈ (lines '\n' file).take cpuinfoAddrSize, l.length ≤ bufferSize - 1 :=
  fun l hl => Nat.le_sub_one_of_lt (h l hl)

theorem bufferAt_of_fits
    (h : ∀ l ∈ (lines '\n' file).take cpuinfoAddrSize, l.length < bufferSize) (hrow : 0 < row)
    (hle : row ≤ cpuinfoAddrSize) : bufferAt file row = (lines '\n' file)[row - 1]?.getD [] := by
  have hlt : row - 1 < cpuinfoAddrSize := by omega
  have htake := take_pieces (by decide) (length_le_of_fits h)
  rw [bufferAt, ← List.getElem?_take_of_lt hlt, htake, List.getElem?_take_of_lt hlt]

theorem text_append {a : List Char} (h : nul ∉ a) (b : List Char) : text (a ++ b) = a ++ text b := by
  apply List.takeWhile_append_of_pos
  intro c hc
  simpa using ne_of_mem_of_not_mem hc h

theorem text_of_notMem {a : List Char} (h : nul ∉ a) : text a = a := by
  have hnil : text [] = [] := rfl
  have := text_append h []
  rwa [List.append_nil, hnil, List.append_nil] at this

theorem value_of_notMem {buf : List Char} (h : ':' ∉ text buf) : value buf = .ok (text buf) := by
  rw [value, List.idxOf?_eq_none_iff.mpr h]

theorem value_append {key : List Char} (hcolon : ':' ∉ key) (hnul : nul ∉ key) (rest : List Char) :
    value (key ++ ':' :: rest) =
      if key.length + 2 < bufferSize then .ok (text (rest.drop 1)) else .error .outside := by
  have htext : text (key ++ ':' :: rest) = key ++ ':' :: text rest := by
    rw [text_append hnul]
    rfl
  have hindex : (key ++ ':' :: text rest).idxOf? ':' = some key.length := by
    rw [List.idxOf?_eq_some_iff]
    refine ⟨by simp, by simp, ?_⟩
    intro i hi heq
    rw [List.getElem_append_left hi] at heq
    exact hcolon (heq ▸ List.getElem_mem hi)
  have hdrop : (key ++ ':' :: rest).drop (key.length + 2) = rest.drop 1 := by
    rw [List.drop_append, List.drop_eq_nil_of_le (by omega), List.nil_append,
      Nat.add_sub_cancel_left]
    rfl
  rw [value, htext, hindex]
  simp only [hdrop]

theorem foldlM_countCpu (bufs : List (List Char)) (n : ℕ) (hn : n < 2 ^ 31) :
    bufs.foldlM countCpu n = if n + bufs.countP (processor <+: ·) < 2 ^ 31 then
      .ok (n + bufs.countP (processor <+: ·)) else .error .overflow := by
  induction bufs generalizing n with
  | nil =>
    rw [List.countP_nil, Nat.add_zero, if_pos hn]
    rfl
  | cons buf bufs ih =>
    rw [List.foldlM_cons, countCpu, List.countP_cons]
    by_cases hbuf : processor <+: buf
    · rw [if_pos hbuf, if_pos (decide_eq_true hbuf)]
      by_cases hlt : n < 2 ^ 31 - 1
      · rw [if_pos hlt]
        change bufs.foldlM countCpu (n + 1) = _
        rw [ih (n + 1) (by omega), Nat.add_right_comm, Nat.add_assoc]
      · rw [if_neg hlt, if_neg (by omega)]
        rfl
    · have hnot : ¬ decide (processor <+: buf) = true := by simpa using hbuf
      rw [if_neg hbuf, if_neg hnot, Nat.add_zero]
      exact ih n hn

theorem countCpus_eq (file : List Char) : countCpus file =
    if (pieces '\n' (bufferSize - 1) file).countP (processor <+: ·) < 2 ^ 31 then
      .ok ((pieces '\n' (bufferSize - 1) file).countP (processor <+: ·))
    else .error .overflow := by
  rw [countCpus, foldlM_countCpu _ 0 (by decide), Nat.zero_add]

/-- The number of the processors is that of the lines that start with `processor` exactly when no
cut makes such a line of the rest of another one, and there are not too many. -/
theorem countCpus_iff (file : List Char) :
    countCpus file = .ok ((lines '\n' file).countP (processor <+: ·)) ↔
      (∀ l ∈ lines '\n' file, NotCut (bufferSize - 1) processor l) ∧
        (lines '\n' file).countP (processor <+: ·) < 2 ^ 31 := by
  have hiff := (countP_pieces '\n' (by decide : 0 < bufferSize - 1)
    (by decide : processor ≠ []) (by decide) file).2
  rw [← hiff, countCpus_eq]
  constructor
  · intro h
    split at h
    case isTrue hlt =>
      injection h with h
      exact ⟨h, h ▸ hlt⟩
    case isFalse => cases h
  · rintro ⟨heq, hlt⟩
    rw [heq, if_pos hlt]

theorem assignFields_of_rows (h : ∀ row ∈ cpuinfoRows, rowValue file row = .ok (val row)) :
    assignFields info file = (countCpus file).map (fieldsOf val) := by
  rw [assignFields_eq]
  simp (disch := decide) only [h]
  cases countCpus file <;> rfl

theorem rowValue_of_fits (htext : KeyValueText file val)
    (h : ∀ l ∈ (lines '\n' file).take cpuinfoAddrSize, l.length < bufferSize) :
    ∀ row ∈ cpuinfoRows, rowValue file row = .ok (val row) := by
  intro row hmem
  obtain ⟨hrow, hle⟩ := cpuinfoRows_bounds row hmem
  obtain ⟨key, hcolon, hkey, hval, hline⟩ := htext row hrow hle
  have hmem : key ++ ':' :: ' ' :: val row ∈ (lines '\n' file).take cpuinfoAddrSize := by
    apply List.mem_of_getElem? (i := row - 1)
    rw [List.getElem?_take_of_lt (by omega), hline]
  have hlen := h _ hmem
  rw [List.length_append, List.length_cons, List.length_cons] at hlen
  rw [rowValue, bufferAt_of_fits h hrow hle, hline, Option.getD_some, value_append hcolon hkey,
    if_pos (by omega)]
  exact congrArg Except.ok (text_of_notMem hval)

theorem addrSize_le_length (htext : KeyValueText file val) :
    cpuinfoAddrSize ≤ (lines '\n' file).length := by
  obtain ⟨_, _, _, _, hline⟩ := htext cpuinfoAddrSize (by decide) (Nat.le_refl _)
  have := (List.getElem?_eq_some_iff.mp hline).1
  omega

theorem readTo_rewind_iff (htext : KeyValueText file val) :
    (∀ row ∈ cpuinfoRows, readTo row (rewind file) =
      ⟨((lines '\n' file).drop row).flatten, (lines '\n' file)[row - 1]?.getD [], row⟩) ↔
      ∀ l ∈ (lines '\n' file).take cpuinfoAddrSize, l.length < bufferSize := by
  have hlast := flatten_drop_pieces_iff (by decide : 0 < bufferSize - 1) (addrSize_le_length htext)
  constructor
  · intro h l hl
    have hrow := congrArg Reader.fp (h cpuinfoAddrSize (by decide))
    rw [readTo_rewind, readerAt_fp] at hrow
    exact Nat.lt_of_le_pred (by decide) (hlast.mp hrow l hl)
  · intro h row hrow
    obtain ⟨hpos, hle⟩ := cpuinfoRows_bounds row hrow
    have hfp := (flatten_drop_pieces_iff (by decide : 0 < bufferSize - 1)
      (Nat.le_trans hle (addrSize_le_length htext))).mpr
        fun l hl => length_le_of_fits h l (List.take_subset_take_left _ hle hl)
    rw [readTo_rewind, ← bufferAt_of_fits h hpos hle, ← hfp, ← readerAt_fp, ← readerAt_buf hpos]
    exact congrArg (Reader.mk _ _) (readerAt_cnt file row)

/-- All fields are assigned from their own lines, and the processors are counted, if and only if
each line up to that of the address sizes fits into the buffer, and no line is cut where it has the
word `processor`. -/
theorem assigned_iff (htext : KeyValueText file val) : Assigned file val ↔
    (∀ l ∈ (lines '\n' file).take cpuinfoAddrSize, l.length < bufferSize) ∧
      (∀ l ∈ lines '\n' file, NotCut (bufferSize - 1) processor l) ∧
        (lines '\n' file).countP (processor <+: ·) < 2 ^ 31 := by
  rw [← countCpus_iff, ← readTo_rewind_iff htext]
  constructor
  · rintro ⟨hrows, hfields⟩
    refine ⟨hrows, ?_⟩
    rw [assignFields_of_rows (rowValue_of_fits htext ((readTo_rewind_iff htext).mp hrows))] at hfields
    cases hcount : countCpus file with
    | error e =>
      rw [hcount] at hfields
      cases hfields
    | ok n =>
      rw [hcount] at hfields
      injection hfields with hfields
      exact congrArg (fun i => Except.ok i.numofcpu) hfields
  · rintro ⟨hrows, hcount⟩
    refine ⟨hrows, ?_⟩
    rw [assignFields_of_rows (rowValue_of_fits htext ((readTo_rewind_iff htext).mp hrows)), hcount]
    rfl

/-- The record with these fields is what is returned, where the divisions are defined. -/
theorem Assigned.readCpuInfo (h : Assigned file val) {siblings cores numofcpu : ℕ}
    (hsiblings : sscanf (val cpuinfoSiblings) 0 = siblings)
    (hcores : sscanf (val cpuinfoCpuCores) 0 = cores)
    (hcount : (lines '\n' file).countP (processor <+: ·) = numofcpu) :
    Mylscpu.readCpuInfo info file =
      if cores = 0 ∨ siblings / cores = 0 then .error .division
      else .ok { fieldsOf val numofcpu with
        threads := siblings / cores
        sockets := numofcpu / (siblings / cores) / cores } := by
  subst hsiblings hcores hcount
  rw [Mylscpu.readCpuInfo, h.fields]
  rfl

end Fields

section Example

def textOf (v : ℕ → List Char) : List Char :=
  ((List.range cpuinfoAddrSize).map fun i => ['k', ':', ' '] ++ v (i + 1) ++ ['\n']).flatten

variable {v : ℕ → List Char}

theorem lines_textOf (h : ∀ row, '\n' ∉ v row) : lines '\n' (textOf v) =
    (List.range cpuinfoAddrSize).map fun i => ['k', ':', ' '] ++ v (i + 1) ++ ['\n'] := by
  apply lines_flatten
  intro l hl
  obtain ⟨i, -, rfl⟩ := List.mem_map.mp hl
  exact ⟨_, by simp [h], rfl⟩

theorem keyValueText_textOf (h : ∀ row, '\n' ∉ v row) (hnul : ∀ row, nul ∉ v row) :
    KeyValueText (textOf v) fun row => v row ++ ['\n'] := by
  intro row hrow hle
  have hend : nul ∉ v row ++ ['\n'] := by
    simp only [List.mem_append, hnul row, false_or]
    decide
  refine ⟨['k'], by decide, by decide, hend, ?_⟩
  have hlt : row - 1 < cpuinfoAddrSize := by omega
  rw [lines_textOf h, List.getElem?_map, List.getElem?_range hlt, Option.map_some,
    Nat.sub_add_cancel hrow]
  rfl

theorem length_lt_textOf (h : ∀ row, '\n' ∉ v row) (hlen : ∀ row, (v row).length < 1000) :
    ∀ l ∈ lines '\n' (textOf v), l.length < bufferSize := by
  rw [lines_textOf h]
  intro l hl
  obtain ⟨i, -, rfl⟩ := List.mem_map.mp hl
  have := hlen (i + 1)
  change _ < 1024
  simp
  omega

/-- Short lines. -/
theorem assigned_iff_short : Assigned (textOf fun _ => ['1']) fun _ => ['1', '\n'] := by
  have hline : ∀ row : ℕ, '\n' ∉ (fun _ => ['1'] : ℕ → List Char) row := by simp
  have hlen := length_lt_textOf hline (by simp)
  apply (assigned_iff (keyValueText_textOf hline fun _ => by decide)).mpr
  refine ⟨fun l hl => hlen l (List.mem_of_mem_take hl), ?_, ?_⟩
  · intro l hl
    exact notCut_of_le (by decide) (Nat.le_sub_one_of_lt (hlen l hl))
  · rw [lines_textOf hline]
    decide

/-- Values of different lengths, two numbers, and a flags line of more bytes than fit into the
buffer. -/
def longFlags (row : ℕ) : List Char :=
  if row = cpuinfoSiblings ∨ row = cpuinfoCpuCores then ['8']
  else List.replicate (if row = cpuinfoFlags then 1024 else row) 'x'

/-- The flags line counts twice, and `bogomips` has the value of the line before its own. -/
theorem not_assigned_longFlags :
    KeyValueText (textOf longFlags) (fun row => longFlags row ++ ['\n']) ∧
      (readCpuInfo info (textOf longFlags)).map CpuInfo.bogomips =
        .ok (longFlags (cpuinfoCpuBogomips - 1) ++ ['\n']) ∧
      ¬ Assigned (textOf longFlags) fun row => longFlags row ++ ['\n'] := by
  have hmem (c : Char) (h8 : c ≠ '8') (hx : c ≠ 'x') (row : ℕ) : c ∉ longFlags row := by
    intro h
    unfold longFlags at h
    split at h
    case isTrue => exact h8 (List.mem_singleton.mp h)
    case isFalse => exact hx (List.eq_of_mem_replicate h)
  have hread : (readCpuInfo info (textOf longFlags)).map CpuInfo.bogomips =
      .ok (longFlags (cpuinfoCpuBogomips - 1) ++ ['\n']) := by decide +kernel
  refine ⟨keyValueText_textOf (hmem '\n' (by decide) (by decide))
    (hmem nul (by decide) (by decide)), hread, ?_⟩
  rintro ⟨-, hfields⟩
  have hassign : (readCpuInfo info (textOf longFlags)).map CpuInfo.bogomips =
      (divide (fieldsOf (fun row => longFlags row ++ ['\n'])
        ((lines '\n' (textOf longFlags)).countP (processor <+: ·)))).map CpuInfo.bogomips := by
    rw [readCpuInfo, hfields]
    rfl
  rw [hassign] at hread
  exact absurd hread (by decide +kernel)

end Example

end OperatingSystem.Mylscpu
