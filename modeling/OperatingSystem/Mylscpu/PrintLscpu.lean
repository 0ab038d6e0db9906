import Mathlib.Data.List.Nodup
import OperatingSystem.Mylscpu.Field

/-! # The output of `mylscpu`

`PrintTerminal` stops at a newline and nowhere else, and a column count of 33 makes its
test divide by zero. Whether every call stops inside the array it is given therefore
depends on what each of the readers has found in its file.
-/

namespace OperatingSystem.Mylscpu

open Libc Lines
open Procfs (nul)

abbrev infoLen : ℕ := 1024
abbrev flagLen : ℕ := 2048

/-- The files of `/sys/devices/system/cpu/vulnerabilities/` that are read, in the order of
`info.vulnerability`. -/
def vulNames : List String :=
  ["itlb_multihit", "l1tf", "mds", "meltdown", "spec_store_bypass", "spectre_v1", "spectre_v2",
    "srbds", "tsx_async_abort"]

/-- The contents of the files. The entries of the directory of the vulnerabilities are in the order
of `readdir`, and a file that `fopen` does not open has no contents. -/
structure Files where
  cpuinfo : List Char
  online : List Char
  vul : List (String × Option (List Char))
  nodup : (vul.map Prod.fst).Nodup

/-- `ReadFileSystemCPU`, as far as `info.online`. -/
def readFileSystemCpu (info : CpuInfo) (file : List Char) : CpuInfo :=
  { info with online := (fgets file).1 }

/-- The comparisons of `dentry->d_name` and the copy of the first line. -/
def storeVul (vulnerability : List (List Char)) (name : String) (file : List Char) :
    List (List Char) :=
  if name ∈ vulNames then vulnerability.set (vulNames.idxOf name) (text (fgets file).1)
  else vulnerability

/-- The loop over the directory, which breaks at a file that is not opened. -/
def readVul : List (String × Option (List Char)) → List (List Char) → List (List Char)
  | [], vulnerability => vulnerability
  | (_, none) :: _, vulnerability => vulnerability
  | (name, some file) :: entries, vulnerability =>
    readVul entries (storeVul vulnerability name file)

def readFileSystemVul (info : CpuInfo) (entries : List (String × Option (List Char))) : CpuInfo :=
  { info with vulnerability := readVul entries info.vulnerability }

def readFileSystem (files : Files) (info : CpuInfo) : CpuInfo :=
  readFileSystemVul (readFileSystemCpu info files.online) files.vul

def array (size : ℕ) (a : List Char) : List Char := (a ++ List.replicate size nul).take size

def blank : List Char := List.replicate 33 ' '

/-- `PrintTerminal` from index `i` on, over what is left of the array. -/
def printTerminal (termWidth : ℕ) : List Char → ℕ → Except Fault (List Char)
  | [], _ => .error .outside
  | c :: p, i =>
    if c = '\n' then .ok ['\n']
    else if i ≠ 0 ∧ (termWidth : ℤ) - 33 = 0 then .error .division
    else do
      let out ← printTerminal termWidth p (i + 1)
      if i ≠ 0 ∧ (i : ℤ).tmod (termWidth - 33) = 0 then .ok (blank ++ c :: out)
      else .ok (c :: out)

/-- The arguments of `PrintTerminal` in `PrintLSCPU`, in the order of the calls. -/
def terminalFields (info : CpuInfo) : List (List Char) :=
  ([info.venderid, info.cpufamily, info.model, info.modelname, info.stepping, info.speed,
    info.bogomips, info.online] ++ info.vulnerability).map (array infoLen) ++
    [array flagLen info.flags]

/-- `PrintLSCPU`, as far as it calls `PrintTerminal`. -/
def printLscpu (termWidth : ℕ) (info : CpuInfo) : Except Fault (List (List Char)) :=
  (terminalFields info).mapM fun p => printTerminal termWidth p 0

/-- Every call of `PrintTerminal` stops inside its array and without a division by zero. No call is
made where `ReadCpuInfo` divides by zero. -/
def AllStop (termWidth : ℕ) (files : Files) : Prop :=
  match readCpuInfo info files.cpuinfo with
  | .ok info => ∃ out, printLscpu termWidth (readFileSystem files info) = .ok out
  | .error e => e = .division

def opened : List (String × Option (List Char)) → List (String × List Char)
  | [] => []
  | (_, none) :: _ => []
  | (name, some file) :: entries => (name, file) :: opened entries

/-- The first line of a file of vulnerabilities, and nothing if the file is not opened. -/
def vulText (entries : List (String × Option (List Char))) (name : String) : List Char :=
  ((opened entries).lookup name).elim [] fun file => text (fgets file).1

/-- The first line of a file is `v` and fits into the buffer. With 33 columns it has at most one
character before its newline. -/
def FirstLine (termWidth : ℕ) (file v : List Char) : Prop :=
  ∃ rest, file = v ++ '\n' :: rest ∧ '\n' ∉ v ∧ v.length < bufferSize - 1 ∧
    (termWidth = 33 → v.length ≤ 1)

def printedRows : List ℕ :=
  [cpuinfoVenderId, cpuinfoCpuFamily, cpuinfoModel, cpuinfoModelName, cpuinfoStepping,
    cpuinfoCpuMhz, cpuinfoCpuBogomips]

/-- All fields that are printed are read with a newline. -/
structure Printable (termWidth : ℕ) (files : Files) : Prop where
  rows : ∀ row ∈ printedRows, RowEnds termWidth (bufferAt files.cpuinfo row)
  flags : RowEnds termWidth (bufferAt files.cpuinfo cpuinfoFlags)
  online : ∃ v, FirstLine termWidth files.online v
  vul : ∀ name ∈ vulNames, ∃ file v, (opened files.vul).lookup name = some file ∧
    FirstLine termWidth file v ∧ nul ∉ v

/-- `ReadCpuInfo` stays in its buffer, and counts the processors in an `int`. -/
structure Defined (file : List Char) : Prop where
  inside : ∀ row ∈ cpuinfoRows, ¬ ColonLast (bufferAt file row)
  count : (pieces '\n' (bufferSize - 1) file).countP (processor <+: ·) < 2 ^ 31

def rowText (file : List Char) (row : ℕ) : List Char :=
  match rowValue file row with
  | .ok t => t
  | .error _ => []

/-- There are cores, and not more than siblings. -/
def Divides (file : List Char) : Prop :=
  0 < sscanf (rowText file cpuinfoCpuCores) 0 ∧
    sscanf (rowText file cpuinfoCpuCores) 0 ≤ sscanf (rowText file cpuinfoSiblings) 0

variable {a t : List Char} {termWidth size : ℕ} {files : Files}

section Terminal

theorem bind_isOk {α β : Type} {x : Except Fault α} {f : α → Except Fault β} :
    (∃ b, x >>= f = .ok b) ↔ ∃ a, x = .ok a ∧ ∃ b, f a = .ok b := by
  cases x with
  | error e =>
    constructor
    · rintro ⟨b, h⟩
      cases h
    · rintro ⟨a, h, -⟩
      cases h
  | ok a =>
    constructor
    · rintro ⟨b, h⟩
      exact ⟨a, rfl, b, h⟩
    · rintro ⟨a', h, b, hb⟩
      cases h
      exact ⟨b, hb⟩

theorem mapM_isOk {α β : Type} (f : α → Except Fault β) (l : List α) :
    (∃ out, l.mapM f = .ok out) ↔ ∀ x ∈ l, ∃ y, f x = .ok y := by
  induction l with
  | nil => exact iff_of_true ⟨[], rfl⟩ (by simp)
  | cons x l ih =>
    rw [List.mapM_cons, bind_isOk, List.forall_mem_cons, ← ih]
    constructor
    · rintro ⟨y, hy, hl⟩
      obtain ⟨out, hout, -⟩ := bind_isOk.mp hl
      exact ⟨⟨y, hy⟩, out, hout⟩
    · rintro ⟨⟨y, hy⟩, out, hout⟩
      exact ⟨y, hy, bind_isOk.mpr ⟨out, hout, _, rfl⟩⟩

theorem printTerminal_next {c : Char} (hc : c ≠ '\n') (p : List Char) (i : ℕ) :
    (∃ out, printTerminal termWidth (c :: p) i = .ok out) ↔
      (termWidth = 33 → i = 0) ∧ ∃ out, printTerminal termWidth p (i + 1) = .ok out := by
  rw [printTerminal, if_neg hc]
  by_cases hdiv : i ≠ 0 ∧ (termWidth : ℤ) - 33 = 0
  · rw [if_pos hdiv]
    apply iff_of_false
    · rintro ⟨out, h⟩
      cases h
    · rintro ⟨hwidth, -⟩
      exact hdiv.1 (hwidth (by omega))
  · have hwidth : termWidth = 33 → i = 0 := by omega
    rw [if_neg hdiv, bind_isOk, and_iff_right hwidth]
    constructor
    · rintro ⟨out, hout, -⟩
      exact ⟨out, hout⟩
    · rintro ⟨out, hout⟩
      refine ⟨out, hout, ?_⟩
      split
      · exact ⟨_, rfl⟩
      · exact ⟨_, rfl⟩

/-- The loop stops at the first newline, unless it comes to a division by zero before. -/
theorem printTerminal_isOk (a : List Char) (i : ℕ) :
    (∃ out, printTerminal termWidth a i = .ok out) ↔
      ∃ v rest, a = v ++ '\n' :: rest ∧ '\n' ∉ v ∧
        (termWidth = 33 → v = [] ∨ v.length + i ≤ 1) := by
  induction a generalizing i with
  | nil => simp [printTerminal]
  | cons c a ih =>
    by_cases hc : c = '\n'
    · subst hc
      rw [printTerminal, if_pos rfl]
      exact iff_of_true ⟨_, rfl⟩ ⟨[], a, rfl, by simp, fun _ => Or.inl rfl⟩
    · rw [printTerminal_next hc, ih]
      constructor
      · rintro ⟨hi, v, rest, rfl, hv, hwidth⟩
        refine ⟨c :: v, rest, rfl, by simp [hv, Ne.symm hc], fun h => Or.inr ?_⟩
        rcases hwidth h with rfl | hlen
        · simp [hi h]
        · rw [List.length_cons]
          omega
      · rintro ⟨v, rest, heq, hv, hwidth⟩
        cases v with
        | nil => exact absurd (List.cons.inj heq).1 hc
        | cons d v =>
          obtain ⟨rfl, rfl⟩ := List.cons.inj heq
          have hlen (h : termWidth = 33) : v.length + 1 + i ≤ 1 := by simpa using hwidth h
          refine ⟨fun h => ?_, v, rest, rfl, fun h => hv (List.mem_cons_of_mem _ h), fun h => ?_⟩
          · have := hlen h
            omega
          · have := hlen h
            exact Or.inl (List.length_eq_zero_iff.mp (by omega))

theorem array_eq (h : t.length ≤ size) : array size t = t ++ List.replicate (size - t.length) nul := by
  rw [array, List.take_append, List.take_of_length_le h, List.take_replicate,
    Nat.min_eq_left (Nat.sub_le size t.length)]

theorem printTerminal_array (h : Field t) (hsize : bufferSize ≤ size) :
    (∃ out, printTerminal termWidth (array size t) 0 = .ok out) ↔ Ends termWidth t := by
  have hlen := h.length_lt
  rw [printTerminal_isOk, array_eq (by omega)]
  constructor
  · rintro ⟨v, rest, heq, hv, hwidth⟩
    rcases List.append_eq_append_iff.mp heq with ⟨x, rfl, hx⟩ | ⟨x, rfl, hx⟩
    · have hmem : '\n' ∈ List.replicate (size - t.length) nul := by
        rw [hx]
        simp
      exact absurd (List.eq_of_mem_replicate hmem) (by decide)
    · cases x with
      | nil =>
        have hmem : '\n' ∈ List.replicate (size - (v ++ []).length) nul := by
          rw [← List.nil_append (List.replicate _ _), ← hx]
          simp
        exact absurd (List.eq_of_mem_replicate hmem) (by decide)
      | cons c x =>
        obtain ⟨rfl, -⟩ := List.cons.inj hx
        obtain rfl := h.newline v x rfl
        refine ⟨v, rfl, fun h => ?_⟩
        have := hwidth h
        rw [← List.length_eq_zero_iff] at this
        omega
  · rintro ⟨v, rfl, hwidth⟩
    refine ⟨v, List.replicate _ nul, List.append_assoc v ['\n'] _, ?_, fun h => Or.inr (hwidth h)⟩
    intro hmem
    obtain ⟨x, y, rfl⟩ := List.append_of_mem hmem
    have := h.newline x (y ++ ['\n']) (by simp)
    simp at this

end Terminal

section Vulnerabilities

variable {entries : List (String × Option (List Char))} {f : String → List Char}

theorem opened_subset (entries : List (String × Option (List Char))) :
    (opened entries).map Prod.fst ⊆ entries.map Prod.fst := by
  induction entries with
  | nil => exact List.Subset.refl _
  | cons e entries ih =>
    obtain ⟨name, _ | file⟩ := e
    · exact List.nil_subset _
    · exact List.cons_subset_cons name ih

theorem storeVul_map (f : String → List Char) (name : String) (file : List Char) :
    storeVul (vulNames.map f) name file =
      vulNames.map (Function.update f name (text (fgets file).1)) := by
  have hnodup : vulNames.Nodup := by decide
  rw [hnodup.map_update, storeVul]

theorem readVul_map (h : (entries.map Prod.fst).Nodup) : readVul entries (vulNames.map f) =
    vulNames.map fun name =>
      ((opened entries).lookup name).elim (f name) fun file => text (fgets file).1 := by
  induction entries generalizing f with
  | nil => rfl
  | cons e entries ih =>
    obtain ⟨name, _ | file⟩ := e
    · rfl
    · obtain ⟨hname, hrest⟩ := List.nodup_cons.mp h
      rw [readVul, storeVul_map, ih hrest]
      apply List.map_congr_left
      intro other _
      rw [opened]
      by_cases heq : other = name
      · subst heq
        have hnone : (opened entries).lookup other = none := by
          rw [List.lookup_eq_none_iff]
          intro e he
          have := ne_of_mem_of_not_mem (opened_subset entries (List.mem_map_of_mem he)) hname
          simpa using this.symm
        rw [hnone, List.lookup_cons_self, Option.elim_none, Option.elim_some,
          Function.update_self]
      · have hne : (other == name) = false := by simpa using heq
        rw [List.lookup_cons, hne, Function.update_of_ne heq]

end Vulnerabilities

section Rows

variable {file : List Char} {row : ℕ}

theorem rowValue_rowText (h : ¬ ColonLast (bufferAt file row)) :
    rowValue file row = .ok (rowText file row) := by
  obtain ⟨t, ht⟩ := (value_ok_iff (field_bufferAt file row)).mpr h
  rw [rowText, rowValue, ht]

theorem field_rowText (h : ¬ ColonLast (bufferAt file row)) : Field (rowText file row) :=
  field_value (field_bufferAt file row) (rowValue_rowText h)

theorem ends_rowText (h : ¬ ColonLast (bufferAt file row)) :
    Ends termWidth (rowText file row) ↔ RowEnds termWidth (bufferAt file row) := by
  have hvalue : value (bufferAt file row) = .ok (rowText file row) := rowValue_rowText h
  rw [← value_ends_iff (field_bufferAt file row)]
  constructor
  · intro hends
    exact ⟨_, hvalue, hends⟩
  · rintro ⟨t, ht, hends⟩
    rw [hvalue] at ht
    cases ht
    exact hends

theorem ends_fgets : Ends termWidth (fgets file).1 ↔ ∃ v, FirstLine termWidth file v := by
  constructor
  · rintro ⟨v, hv, hwidth⟩
    obtain ⟨rest, hfile, hmem, hlt⟩ := gets_eq_iff.mp hv
    exact ⟨v, rest, hfile, hmem, hlt, hwidth⟩
  · rintro ⟨v, rest, hfile, hmem, hlt, hwidth⟩
    exact ⟨v, gets_eq_iff.mpr ⟨rest, hfile, hmem, hlt⟩, hwidth⟩

theorem ends_text_fgets : Ends termWidth (text (fgets file).1) ↔
    ∃ v, FirstLine termWidth file v ∧ nul ∉ v := by
  constructor
  · rintro ⟨v, hv, hwidth⟩
    obtain ⟨hgets, hnul⟩ := (text_eq_iff (field_fgets file)).mp hv
    obtain ⟨rest, hfile, hmem, hlt⟩ := gets_eq_iff.mp hgets
    exact ⟨v, ⟨rest, hfile, hmem, hlt, hwidth⟩, hnul⟩
  · rintro ⟨v, ⟨rest, hfile, hmem, hlt, hwidth⟩, hnul⟩
    exact ⟨v, (text_eq_iff (field_fgets file)).mpr
      ⟨gets_eq_iff.mpr ⟨rest, hfile, hmem, hlt⟩, hnul⟩, hwidth⟩

theorem countCpus_isOk (file : List Char) : (∃ n, countCpus file = .ok n) ↔
    (pieces '\n' (bufferSize - 1) file).countP (processor <+: ·) < 2 ^ 31 := by
  rw [countCpus_eq]
  split
  case isTrue h => exact iff_of_true ⟨_, rfl⟩ h
  case isFalse h =>
    apply iff_of_false _ h
    rintro ⟨n, hn⟩
    cases hn

theorem assignFields_of_defined (h : Defined file) :
    ∃ n, assignFields info file = .ok (fieldsOf (rowText file) n) := by
  obtain ⟨n, hn⟩ := (countCpus_isOk file).mpr h.count
  refine ⟨n, ?_⟩
  rw [assignFields_of_rows fun row hrow => rowValue_rowText (h.inside row hrow), hn]
  rfl

/-- The fields are assigned if and only if this stays in the buffer and in the range of `int`. -/
theorem assignFields_isOk (file : List Char) :
    (∃ i, assignFields info file = .ok i) ↔ Defined file := by
  constructor
  · rw [assignFields_eq]
    simp only [bind_isOk]
    rintro ⟨n, hn, t₁, h₁, t₂, h₂, t₃, h₃, t₄, h₄, t₅, h₅, t₆, h₆, t₇, h₇, t₈, h₈, t₉, h₉,
      t₁₀, h₁₀, t₁₁, h₁₁, -⟩
    have hrows : ∀ row ∈ cpuinfoRows, ∃ t, rowValue file row = .ok t := by
      simp only [cpuinfoRows, List.forall_mem_cons]
      exact ⟨⟨t₁, h₁⟩, ⟨t₂, h₂⟩, ⟨t₃, h₃⟩, ⟨t₄, h₄⟩, ⟨t₅, h₅⟩, ⟨t₆, h₆⟩, ⟨t₇, h₇⟩, ⟨t₈, h₈⟩,
        ⟨t₉, h₉⟩, ⟨t₁₀, h₁₀⟩, ⟨t₁₁, h₁₁⟩, by simp⟩
    exact ⟨fun row hrow => (value_ok_iff (field_bufferAt file row)).mp (hrows row hrow),
      (countCpus_isOk file).mp ⟨n, hn⟩⟩
  · intro h
    obtain ⟨n, hn⟩ := assignFields_of_defined h
    exact ⟨_, hn⟩

theorem bind_ne_division {α β : Type} {x : Except Fault α} {f : α → Except Fault β}
    (hx : x ≠ .error .division) (hf : ∀ a, f a ≠ .error .division) :
    x >>= f ≠ .error .division := by
  cases x with
  | error e =>
    intro h
    apply hx
    injection h with h
    rw [h]
  | ok a => exact hf a

theorem countCpus_ne_division (file : List Char) : countCpus file ≠ .error .division := by
  rw [countCpus_eq]
  split
  · intro h
    cases h
  · intro h
    cases h

theorem rowValue_ne_division (file : List Char) (row : ℕ) :
    rowValue file row ≠ .error .division := by
  intro h
  rw [rowValue] at h
  rcases value_cases (field_bufferAt file row) with ⟨t, ht, -⟩ | hlast
  · rw [ht] at h
    cases h
  · rw [value_colonLast hlast] at h
    cases h

theorem assignFields_ne_division (file : List Char) :
    assignFields info file ≠ .error .division := by
  rw [assignFields_eq]
  refine bind_ne_division (countCpus_ne_division file) fun _ => ?_
  iterate 11 refine bind_ne_division (rowValue_ne_division file _) fun _ => ?_
  intro h
  cases h

end Rows

theorem printedRows_subset : printedRows ⊆ cpuinfoRows := by decide

theorem terminalFields_eq (files : Files) (val : ℕ → List Char) (n threads sockets : ℕ) :
    terminalFields (readFileSystem files { fieldsOf val n with threads, sockets }) =
      printedRows.map (fun row => array infoLen (val row)) ++
        (array infoLen (fgets files.online).1 ::
          vulNames.map (fun name => array infoLen (vulText files.vul name))) ++
        [array flagLen (val cpuinfoFlags)] := by
  have hvul : (readFileSystem files { fieldsOf val n with threads, sockets }).vulnerability =
      vulNames.map (vulText files.vul) := readVul_map (f := fun _ => []) files.nodup
  rw [terminalFields, hvul, List.map_append, List.map_map]
  rfl

theorem printTerminal_rowText {row : ℕ} (h : ¬ ColonLast (bufferAt files.cpuinfo row))
    (hsize : bufferSize ≤ size) :
    (∃ out, printTerminal termWidth (array size (rowText files.cpuinfo row)) 0 = .ok out) ↔
      RowEnds termWidth (bufferAt files.cpuinfo row) := by
  rw [printTerminal_array (field_rowText h) hsize, ends_rowText h]

theorem printTerminal_vulText (entries : List (String × Option (List Char))) (name : String) :
    (∃ out, printTerminal termWidth (array infoLen (vulText entries name)) 0 = .ok out) ↔
      ∃ file v, (opened entries).lookup name = some file ∧ FirstLine termWidth file v ∧
        nul ∉ v := by
  rw [vulText]
  cases hlookup : (opened entries).lookup name with
  | none =>
    rw [Option.elim_none, printTerminal_array field_nil (Nat.le_refl _)]
    apply iff_of_false
    · rintro ⟨v, hv, -⟩
      simp at hv
    · rintro ⟨file, v, hfile, -⟩
      cases hfile
  | some file =>
    rw [Option.elim_some, printTerminal_array (field_fgets file).text (Nat.le_refl _),
      ends_text_fgets]
    constructor
    · rintro ⟨v, hv⟩
      exact ⟨file, v, rfl, hv⟩
    · rintro ⟨file', v, hfile, hv⟩
      cases hfile
      exact ⟨v, hv⟩

theorem printLscpu_isOk (h : Defined files.cpuinfo) (n threads sockets : ℕ) :
    (∃ out, printLscpu termWidth (readFileSystem files
      { fieldsOf (rowText files.cpuinfo) n with threads, sockets }) = .ok out) ↔
      Printable termWidth files := by
  have honline : (∃ out, printTerminal termWidth (array infoLen (fgets files.online).1) 0 = .ok out) ↔
      ∃ v, FirstLine termWidth files.online v := by
    rw [printTerminal_array (field_fgets _) (Nat.le_refl _), ends_fgets]
  have hflags : (∃ out, printTerminal termWidth
      (array flagLen (rowText files.cpuinfo cpuinfoFlags)) 0 = .ok out) ↔
      RowEnds termWidth (bufferAt files.cpuinfo cpuinfoFlags) :=
    printTerminal_rowText (h.inside cpuinfoFlags (by decide)) (by decide)
  have hinside (row : ℕ) (hrow : row ∈ printedRows) := h.inside row (printedRows_subset hrow)
  rw [printLscpu, mapM_isOk, terminalFields_eq]
  simp only [List.forall_mem_append, List.forall_mem_cons, List.forall_mem_map, honline, hflags,
    printTerminal_vulText]
  constructor
  · rintro ⟨⟨hrows, honline, hvul⟩, hflags, -⟩
    refine ⟨fun row hrow => ?_, hflags, honline, hvul⟩
    exact (printTerminal_rowText (hinside row hrow) (Nat.le_refl _)).mp (hrows row hrow)
  · rintro ⟨hrows, hflags, honline, hvul⟩
    refine ⟨⟨fun row hrow => ?_, honline, hvul⟩, hflags, by simp⟩
    exact (printTerminal_rowText (hinside row hrow) (Nat.le_refl _)).mpr (hrows row hrow)

theorem divide_fieldsOf (file : List Char) (n : ℕ) :
    (Divides file ∧ ∃ threads sockets, divide (fieldsOf (rowText file) n) =
      .ok { fieldsOf (rowText file) n with threads, sockets }) ∨
      (¬ Divides file ∧ divide (fieldsOf (rowText file) n) = .error .division) := by
  have hiff : Divides file ↔ ¬ ((fieldsOf (rowText file) n).cores = 0 ∨
      (fieldsOf (rowText file) n).siblings / (fieldsOf (rowText file) n).cores = 0) := by
    rw [Nat.div_eq_zero_iff, ← or_assoc, or_self, not_or, Nat.not_lt, ← ne_eq,
      ← Nat.pos_iff_ne_zero]
    rfl
  rw [hiff, divide]
  split
  case isTrue hzero => exact Or.inr ⟨not_not_intro hzero, rfl⟩
  case isFalse hzero => exact Or.inl ⟨hzero, _, _, rfl⟩

/-- Every call of `PrintTerminal` stops if and only if `ReadCpuInfo` is defined and, unless it divides
by zero, every field that is printed is read with a newline. -/
theorem allStop_iff (termWidth : ℕ) (files : Files) : AllStop termWidth files ↔
    Defined files.cpuinfo ∧ (Divides files.cpuinfo → Printable termWidth files) := by
  rw [AllStop, readCpuInfo]
  by_cases h : Defined files.cpuinfo
  · obtain ⟨n, hn⟩ := assignFields_of_defined h
    have hbind : (assignFields info files.cpuinfo >>= divide) =
        divide (fieldsOf (rowText files.cpuinfo) n) := by
      rw [hn]
      rfl
    rw [hbind, and_iff_right h]
    rcases divide_fieldsOf files.cpuinfo n with ⟨hdiv, threads, sockets, hok⟩ | ⟨hdiv, herror⟩
    · rw [hok, forall_prop_of_true hdiv]
      exact printLscpu_isOk h n threads sockets
    · rw [herror]
      exact iff_of_true rfl fun hdiv' => absurd hdiv' hdiv
  · apply iff_of_false _ fun hall => h hall.1
    cases hassign : assignFields info files.cpuinfo with
    | error e =>
      intro he
      exact assignFields_ne_division _ (hassign.trans (congrArg _ he))
    | ok i => exact absurd ((assignFields_isOk _).mp ⟨i, hassign⟩) h

section Example

def machine (names : List String) (h : names.Nodup) : Files where
  cpuinfo := textOf fun _ => ['1']
  online := ['0', '\n']
  vul := names.map fun name => (name, some ['o', 'k', '\n'])
  nodup := by simpa [Function.comp_def] using h

def machineInfo : CpuInfo :=
  { fieldsOf (fun _ => ['1', '\n']) 0 with threads := 1, sockets := 0 }

theorem readCpuInfo_machine : readCpuInfo info (textOf fun _ => ['1']) = .ok machineInfo := by
  decide +kernel

/-- Without the file `srbds` its array is printed to the end, and 33 columns divide by zero at the
second character of a line. -/
theorem not_allStop_machine : ¬ AllStop 80 (machine (vulNames.erase "srbds") (by decide)) ∧
    ¬ AllStop 33 (machine vulNames (by decide)) := by
  have houtside : printLscpu 80 (readFileSystem (machine (vulNames.erase "srbds") (by decide))
      machineInfo) = .error .outside := by decide +kernel
  have hdivision : printLscpu 33 (readFileSystem (machine vulNames (by decide)) machineInfo) =
      .error .division := by decide +kernel
  constructor
  · rw [AllStop, machine, readCpuInfo_machine]
    rintro ⟨out, hout⟩
    cases houtside.symm.trans hout
  · rw [AllStop, machine, readCpuInfo_machine]
    rintro ⟨out, hout⟩
    cases hdivision.symm.trans hout

end Example

end OperatingSystem.Mylscpu
