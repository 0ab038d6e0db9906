import OperatingSystem.Myps.Selection
import OperatingSystem.Procfs.Process

/-! # The table of myps

The header and the rows that `PrintPS` of `myps.c` puts together. Whether a column is
printed and whether it has a width are decided apart from each other, so with `f` some
printed columns have no width and are not filled up with blanks.
-/

namespace OperatingSystem.Myps

open Procfs

/-- The columns, with those that have the indices of `columnWidth`. -/
inductive Column where
  | user
  | uid
  | pid
  | ppid
  | c
  | stime
  | cpu
  | mem
  | vsz
  | rss
  | tty
  | stat
  | start
  | time
  | cmd
  | command
  deriving DecidableEq, Repr

namespace Column

def title : Column → List Char
  | user => ['U', 'S', 'E', 'R']
  | uid => ['U', 'I', 'D']
  | pid => ['P', 'I', 'D']
  | ppid => ['P', 'P', 'I', 'D']
  | c => ['C']
  | stime => ['S', 'T', 'I', 'M', 'E']
  | cpu => ['%', 'C', 'P', 'U']
  | mem => ['%', 'M', 'E', 'M']
  | vsz => ['V', 'S', 'Z']
  | rss => ['R', 'S', 'S']
  | tty => ['T', 'T', 'Y']
  | stat => ['S', 'T', 'A', 'T']
  | start => ['S', 'T', 'A', 'R', 'T']
  | time => ['T', 'I', 'M', 'E']
  | cmd => ['C', 'M', 'D']
  | command => ['C', 'O', 'M', 'M', 'A', 'N', 'D']

def text (p : MyProc) : Column → List Char
  | user => p.user
  | uid => p.user
  | pid => unsignedText p.pid
  | ppid => unsignedText p.ppid
  | c => signedText (truncate p.cpu)
  | stime => p.start
  | cpu => decimalText p.cpu
  | mem => decimalText p.mem
  | vsz => unsignedText p.vsz
  | rss => unsignedText p.rss
  | tty => p.tty
  | stat => p.stat
  | start => p.start
  | time => p.time
  | cmd => p.cmd
  | command => p.command

end Column

def disabled (o : Options) : List Column :=
  if o.fOption then [.user, .mem, .vsz, .rss, .stat, .command]
  else [.ppid, .c, .stime] ++
    if !o.aOption && !o.uOption && !o.xOption then
      [.user, .cpu, .mem, .vsz, .rss, .stat, .start, .command]
    else if !o.uOption then [.user, .cpu, .mem, .vsz, .rss, .start, .cmd]
    else [.cmd]

def columnWidth (o : Options) (procList : List MyProc) (k : Column) : ℤ :=
  if k ∈ disabled o then -1 else widen k.title.length (procList.map fun p => k.text p)

/-- The options with which a column is printed. The last column is not among them. -/
def printed (o : Options) : Column → Bool
  | .user => o.uOption
  | .uid => o.fOption
  | .pid => true
  | .ppid => o.fOption
  | .c => o.fOption
  | .stime => o.fOption
  | .cpu => o.uOption
  | .mem => o.uOption
  | .vsz => o.uOption
  | .rss => o.uOption
  | .tty => true
  | .stat => !o.eOption && (o.aOption || o.uOption || o.xOption)
  | .start => o.uOption
  | .time => true
  | .cmd => false
  | .command => false

/-- A loop that appends blanks while a counter is below `n`. -/
def blanks (n : ℤ) : List Char := List.replicate n.toNat ' '

def leftCell (width : ℤ) (text : List Char) : List Char :=
  text ++ blanks (width - text.length) ++ [' ']

/-- A right-aligned cell after some more blanks. -/
def rightCell (more width : ℤ) (text : List Char) : List Char :=
  blanks (width - text.length + more) ++ text ++ [' ']

/-- What the header appends for a column. -/
def titleCell (width : ℤ) (k : Column) : List Char :=
  match k with
  | .user | .uid | .stime | .tty | .start => leftCell width k.title
  | .pid => rightCell 1 width k.title
  | .stat => rightCell 3 width k.title
  | .time => rightCell 2 width k.title
  | .ppid | .c | .cpu | .mem | .vsz | .rss => rightCell 0 width k.title
  | .cmd | .command => k.title

/-- What a row appends for a column. Other than in the header the three blanks of `STAT` stand
before a left-aligned cell. -/
def textCell (width : ℤ) (p : MyProc) (k : Column) : List Char :=
  match k with
  | .user | .uid | .stime | .tty | .start => leftCell width (k.text p)
  | .pid => rightCell 1 width (k.text p)
  | .stat => [' ', ' ', ' '] ++ leftCell width (k.text p)
  | .time => rightCell 2 width (k.text p)
  | .ppid | .c | .cpu | .mem | .vsz | .rss => rightCell 0 width (k.text p)
  | .cmd | .command => k.text p

/-- The blanks of a cell besides those that fill it up to its width. -/
def spare : Column → ℕ
  | .pid => 2
  | .time => 3
  | .stat => 4
  | _ => 1

/-- The columns before and after the two blanks that follow the user. -/
def userColumns : List Column := [.user, .uid]

def middleColumns : List Column :=
  [.pid, .ppid, .c, .stime, .cpu, .mem, .vsz, .rss, .tty, .stat, .start, .time]

def segments (o : Options) (cell : Column → List Char) : List (List Char) :=
  (userColumns.filter (printed o)).map cell ++ [' ', ' '] ::
    (middleColumns.filter (printed o)).map cell

def lastTitle (o : Options) : List Char :=
  if o.eOption || o.fOption then Column.title .cmd
  else if o.aOption || o.uOption || o.xOption then Column.title .command
  else Column.title .cmd

def lastText (o : Options) (p : MyProc) : List Char :=
  if o.aOption || o.uOption || o.xOption || o.fOption then p.command else p.cmd

def header (o : Options) (procList : List MyProc) : List (List Char) :=
  segments o (fun k => titleCell (columnWidth o procList k) k) ++ [lastTitle o]

def row (o : Options) (procList : List MyProc) (p : MyProc) : List (List Char) :=
  segments o (fun k => textCell (columnWidth o procList k) p k) ++ [lastText o p]

def shown (o : Options) (procList : List MyProc) : List MyProc :=
  procList.filter fun p => !o.pOption || o.pidList.any fun pid => p.pid = pid.toNat

def offsets (x : ℕ) : List (List Char) → List ℕ
  | [] => []
  | s :: line => x :: offsets (x + s.length) line

/-- The printed columns without a width. -/
def unfilled (o : Options) : List Column :=
  if o.fOption then
    (if o.uOption then [.user, .mem, .vsz, .rss] else []) ++
      if !o.eOption && (o.aOption || o.uOption || o.xOption) then [.stat] else []
  else []

/-- The length of a text that takes as much space as the title of its column without a width. -/
def fitting : Column → ℕ
  | .stat => 1
  | k => k.title.length

variable {o : Options} {procList : List MyProc} {p : MyProc} {k : Column}

section Cells

theorem not_mem_disabled (hf : o.fOption = false) (hk : printed o k = true) : k ∉ disabled o := by
  cases hu : o.uOption with
  | true =>
    have hd : disabled o = [.ppid, .c, .stime, .cmd] := by simp [disabled, hf, hu]
    rw [hd]
    cases k <;> simp [printed, hf] at hk ⊢
  | false =>
    cases hax : o.aOption || o.xOption with
    | true =>
      have hd : disabled o =
          [.ppid, .c, .stime, .user, .cpu, .mem, .vsz, .rss, .start, .cmd] := by
        have hnot : ¬ (o.aOption = false ∧ o.xOption = false) := by
          rintro ⟨ha, hx⟩
          simp [ha, hx] at hax
        simp [disabled, hf, hu, hnot]
      rw [hd]
      cases k <;> simp [printed, hf, hu] at hk ⊢
    | false =>
      obtain ⟨ha, hx⟩ := Bool.or_eq_false_iff.mp hax
      have hd : disabled o = [.ppid, .c, .stime, .user, .cpu, .mem, .vsz, .rss, .stat, .start,
          .command] := by simp [disabled, hf, hu, ha, hx]
      rw [hd]
      cases k <;> simp [printed, hf, hu, ha, hx] at hk ⊢

theorem mem_unfilled : k ∈ unfilled o ↔
    k ∈ userColumns ++ middleColumns ∧ printed o k = true ∧ k ∈ disabled o := by
  cases hf : o.fOption with
  | true => cases k <;> simp [unfilled, disabled, printed, userColumns, middleColumns, hf]
  | false =>
    have hempty : unfilled o = [] := by simp [unfilled, hf]
    rw [hempty]
    apply iff_of_false List.not_mem_nil
    rintro ⟨-, hk, hdis⟩
    exact not_mem_disabled hf hk hdis

theorem length_leftCell_eq (width : ℤ) (text : List Char) :
    (leftCell width text).length = text.length + (width - text.length).toNat + 1 := by
  simp only [leftCell, blanks, List.length_append, List.length_replicate, List.length_singleton]

theorem length_rightCell_eq (more width : ℤ) (text : List Char) :
    (rightCell more width text).length = (width - text.length + more).toNat + text.length + 1 := by
  simp only [rightCell, blanks, List.length_append, List.length_replicate, List.length_singleton]

theorem length_leftCell {width : ℕ} {text : List Char} (h : text.length ≤ width) :
    (leftCell width text).length = width + 1 := by
  rw [length_leftCell_eq]
  omega

theorem length_rightCell {width more : ℕ} {text : List Char} (h : text.length ≤ width) :
    (rightCell more width text).length = width + more + 1 := by
  rw [length_rightCell_eq]
  omega

theorem length_leftCell_neg (text : List Char) : (leftCell (-1) text).length = text.length + 1 := by
  rw [length_leftCell_eq]
  omega

theorem length_rightCell_neg (text : List Char) :
    (rightCell 0 (-1) text).length = text.length + 1 := by
  rw [length_rightCell_eq]
  omega

theorem unfilled_cases (hk : k ∈ unfilled o) :
    k = .user ∨ k = .mem ∨ k = .vsz ∨ k = .rss ∨ k = .stat := by
  unfold unfilled at hk
  split at hk
  case isTrue =>
    rcases List.mem_append.mp hk with hk | hk
    · split at hk <;> simp at hk
      tauto
    · split at hk <;> simp at hk
      tauto
  case isFalse => contradiction

theorem length_titleCell {width : ℕ} (hk : k ∈ userColumns ++ middleColumns)
    (h : k.title.length ≤ width) : (titleCell width k).length = width + spare k := by
  cases k
  case user | uid | stime | tty | start => exact length_leftCell h
  case ppid | c | cpu | mem | vsz | rss => exact length_rightCell h
  case pid | time | stat => exact length_rightCell h
  case cmd | command => simp [userColumns, middleColumns] at hk

theorem length_textCell {width : ℕ} (hk : k ∈ userColumns ++ middleColumns)
    (h : (k.text p).length ≤ width) : (textCell width p k).length = width + spare k := by
  cases k
  case user | uid | stime | tty | start => exact length_leftCell h
  case ppid | c | cpu | mem | vsz | rss => exact length_rightCell h
  case pid | time => exact length_rightCell h
  case stat =>
    have hcell : (textCell width p .stat).length = 3 + (leftCell width (Column.text p .stat)).length :=
      List.length_append
    rw [hcell, length_leftCell h, Nat.add_comm]
    rfl
  case cmd | command => simp [userColumns, middleColumns] at hk

theorem length_titleCell_neg (hk : k ∈ unfilled o) :
    (titleCell (-1) k).length = k.title.length + 1 := by
  obtain rfl | rfl | rfl | rfl | rfl := unfilled_cases hk <;> decide

theorem length_textCell_neg (hk : k ∈ unfilled o) :
    (textCell (-1) p k).length = (k.text p).length + spare k := by
  obtain rfl | rfl | rfl | rfl | rfl := unfilled_cases hk
  · exact length_leftCell_neg _
  · exact length_rightCell_neg _
  · exact length_rightCell_neg _
  · exact length_rightCell_neg _
  · have hcell : (textCell (-1) p .stat).length = 3 + (leftCell (-1) (Column.text p .stat)).length :=
      List.length_append
    rw [hcell, length_leftCell_neg, Nat.add_comm]
    rfl

theorem length_cells_neg (hk : k ∈ unfilled o) :
    (titleCell (-1) k).length = (textCell (-1) p k).length ↔ (k.text p).length = fitting k := by
  have hfit : k.title.length + 1 = fitting k + spare k := by
    obtain rfl | rfl | rfl | rfl | rfl := unfilled_cases hk <;> decide
  rw [length_titleCell_neg hk, length_textCell_neg hk]
  omega

def titleSpace (o : Options) (procList : List MyProc) (k : Column) : ℕ :=
  if k ∈ disabled o then k.title.length + 1
  else widen k.title.length (procList.map fun p => k.text p) + spare k

def textSpace (o : Options) (procList : List MyProc) (p : MyProc) (k : Column) : ℕ :=
  (if k ∈ disabled o then (k.text p).length
    else widen k.title.length (procList.map fun p => k.text p)) + spare k

theorem length_title (hk : k ∈ userColumns ++ middleColumns) (hprinted : printed o k = true) :
    (titleCell (columnWidth o procList k) k).length = titleSpace o procList k := by
  unfold columnWidth titleSpace
  split
  case isTrue hd => exact length_titleCell_neg (mem_unfilled.mpr ⟨hk, hprinted, hd⟩)
  case isFalse => exact length_titleCell hk (widen_spec _ _).1

theorem length_text (hp : p ∈ procList) (hk : k ∈ userColumns ++ middleColumns)
    (hprinted : printed o k = true) :
    (textCell (columnWidth o procList k) p k).length = textSpace o procList p k := by
  unfold columnWidth textSpace
  split
  case isTrue hd => exact length_textCell_neg (mem_unfilled.mpr ⟨hk, hprinted, hd⟩)
  case isFalse =>
    exact length_textCell hk ((widen_spec _ _).2 _ (List.mem_map_of_mem hp))

/-- A column has the same space in the header and in a row if it has a width or its text fits. -/
theorem space_eq_iff (hk : k ∈ userColumns ++ middleColumns) (hprinted : printed o k = true) :
    textSpace o procList p k = titleSpace o procList k ↔
      (k ∈ unfilled o → (k.text p).length = fitting k) := by
  unfold textSpace titleSpace
  by_cases hd : k ∈ disabled o
  · have hmem := mem_unfilled.mpr ⟨hk, hprinted, hd⟩
    have hneg := length_cells_neg (p := p) hmem
    rw [length_titleCell_neg hmem, length_textCell_neg hmem] at hneg
    rw [if_pos hd, if_pos hd, eq_comm, hneg]
    exact ⟨fun h _ => h, fun h => h hmem⟩
  · rw [if_neg hd, if_neg hd]
    exact iff_of_true rfl fun hmem => absurd (mem_unfilled.mp hmem).2.2 hd

end Cells

section Lines

theorem map_segments_iff {cell cell' : Column → List Char} :
    (segments o cell).map List.length = (segments o cell').map List.length ↔
      ∀ k ∈ userColumns ++ middleColumns, printed o k = true →
        (cell k).length = (cell' k).length := by
  simp only [segments, List.map_append, List.map_cons, List.map_map]
  constructor
  · intro h
    obtain ⟨huser, hmiddle⟩ := List.append_inj h (by simp)
    have hmiddle := (List.cons.inj hmiddle).2
    rw [List.map_inj_left] at huser hmiddle
    intro k hk hp
    rcases List.mem_append.mp hk with hk | hk
    · exact huser k (List.mem_filter.mpr ⟨hk, hp⟩)
    · exact hmiddle k (List.mem_filter.mpr ⟨hk, hp⟩)
  · intro h
    congr 1
    · apply List.map_congr_left
      intro k hk
      obtain ⟨hk, hp⟩ := List.mem_filter.mp hk
      exact h k (List.mem_append_left _ hk) hp
    · congr 1
      apply List.map_congr_left
      intro k hk
      obtain ⟨hk, hp⟩ := List.mem_filter.mp hk
      exact h k (List.mem_append_right _ hk) hp

theorem offsets_cons (x : ℕ) (a : List (List Char)) (y : List Char) :
    ∃ l, offsets x (a ++ [y]) = x :: l := by
  cases a <;> exact ⟨_, rfl⟩

/-- Lines whose last segment is not filled up start their columns together if and only if the
segments before it are equally long. -/
theorem offsets_append_iff {a b : List (List Char)} (y z : List Char) (x : ℕ) :
    offsets x (a ++ [y]) = offsets x (b ++ [z]) ↔ a.map List.length = b.map List.length := by
  induction a generalizing b x with
  | nil =>
    rcases b with - | ⟨t, b⟩
    · exact iff_of_true rfl rfl
    · apply iff_of_false
      · rcases b with - | ⟨t', b⟩ <;> simp [offsets]
      · simp
  | cons s a ih =>
    rcases b with - | ⟨t, b⟩
    · apply iff_of_false
      · rcases a with - | ⟨s', a⟩ <;> simp [offsets]
      · simp
    · simp only [List.cons_append, offsets, List.map_cons, List.cons.injEq, true_and]
      constructor
      · intro h
        obtain ⟨l, hl⟩ := offsets_cons (x + s.length) a y
        obtain ⟨l', hl'⟩ := offsets_cons (x + t.length) b z
        have hhead : s.length = t.length := by
          rw [hl, hl'] at h
          exact Nat.add_left_cancel (List.cons.inj h).1
        rw [hhead] at h ⊢
        exact ⟨rfl, (ih _).mp h⟩
      · rintro ⟨hlen, htail⟩
        rw [hlen]
        exact (ih _).mpr htail

end Lines

theorem map_row_segments_iff (hp : p ∈ procList) :
    (segments o fun k => textCell (columnWidth o procList k) p k).map List.length =
        (segments o fun k => titleCell (columnWidth o procList k) k).map List.length ↔
      ∀ k ∈ unfilled o, (k.text p).length = fitting k := by
  rw [map_segments_iff]
  constructor
  · intro h k hk
    obtain ⟨hcolumn, hprinted, -⟩ := mem_unfilled.mp hk
    have hlen := h k hcolumn hprinted
    rw [length_text hp hcolumn hprinted, length_title hcolumn hprinted,
      space_eq_iff hcolumn hprinted] at hlen
    exact hlen hk
  · intro h k hcolumn hprinted
    rw [length_text hp hcolumn hprinted, length_title hcolumn hprinted,
      space_eq_iff hcolumn hprinted]
    exact h k

/-- For every combination of the options, the columns of all rows start where those of the header
start if and only if the texts in the columns without a width fit, and all segments are equally long
if and only if the texts of the last column have the length of its title, too. -/
theorem columns_aligned_iff (o : Options) (procList : List MyProc) :
    ((∀ p ∈ shown o procList, offsets 0 (row o procList p) = offsets 0 (header o procList)) ↔
      ∀ p ∈ shown o procList, ∀ k ∈ unfilled o, (k.text p).length = fitting k) ∧
    ((∀ p ∈ shown o procList,
        (row o procList p).map List.length = (header o procList).map List.length) ↔
      ∀ p ∈ shown o procList, (∀ k ∈ unfilled o, (k.text p).length = fitting k) ∧
        (lastText o p).length = (lastTitle o).length) := by
  constructor
  · apply forall₂_congr
    intro p hp
    rw [row, header, offsets_append_iff]
    exact map_row_segments_iff (List.mem_of_mem_filter hp)
  · apply forall₂_congr
    intro p hp
    rw [← map_row_segments_iff (List.mem_of_mem_filter hp), row, header, List.map_append,
      List.map_append]
    constructor
    · intro h
      obtain ⟨hsegments, hlast⟩ := List.append_inj' h rfl
      exact ⟨hsegments, (List.cons.inj hlast).1⟩
    · rintro ⟨hsegments, hlast⟩
      rw [hsegments, List.map_singleton, List.map_singleton, hlast]

def initProc : MyProc := { eraseProcess with pid := 1, user := ['r', 'o', 'o', 't'], stat := ['S', 's'] }

/-- With `f` and `a` the state `Ss` makes the row longer than the header. -/
theorem columns_misaligned : ¬ ∀ o procList, ∀ p ∈ shown o procList,
    offsets 0 (row o procList p) = offsets 0 (header o procList) := by
  intro h
  have hrow := h { Options.initial with aOption := true, fOption := true } [initProc] initProc
    (by decide)
  exact absurd hrow (by decide +kernel)

end OperatingSystem.Myps
