import Mathlib.Algebra.BigOperators.Intervals
import Mathlib.Algebra.Order.BigOperators.Group.Finset
import OperatingSystem.Mytop.SortProc

/-! # The table of mytop

The columns that `PrintTOP` of `mytop.c` draws for a terminal width and a scroll
position. The loop that places the columns stops at the first one that starts beyond the
terminal. The command column has no guard, so it is drawn at the left margin where the
loop has not come to it.
-/

namespace OperatingSystem.Mytop

open Procfs

/-- How a cell stands in its column. The cells of `TIME+` are right-aligned one place further on. -/
inductive Align where
  | left
  | right
  | shifted
  deriving DecidableEq

structure Column where
  title : List Char
  text : Procfs.MyProc → List Char
  align : Align

def columns : List Column :=
  [⟨['P', 'I', 'D'], fun p => unsignedText p.pid, .right⟩,
    ⟨['U', 'S', 'E', 'R'], fun p => p.user, .left⟩,
    ⟨['P', 'R'], fun p => signedText p.priority, .right⟩,
    ⟨['N', 'I'], fun p => signedText p.nice, .right⟩,
    ⟨['V', 'I', 'R', 'T'], fun p => unsignedText p.vsz, .right⟩,
    ⟨['R', 'E', 'S'], fun p => unsignedText p.rss, .right⟩,
    ⟨['S', 'H', 'R'], fun p => unsignedText p.shr, .right⟩,
    ⟨['S'], fun p => p.stat, .left⟩,
    ⟨['%', 'C', 'P', 'U'], fun p => decimalText p.cpu, .right⟩,
    ⟨['%', 'M', 'E', 'M'], fun p => decimalText p.mem, .right⟩,
    ⟨['T', 'I', 'M', 'E', '+'], fun p => p.time, .shifted⟩,
    ⟨['C', 'O', 'M', 'M', 'A', 'N', 'D'], fun p => p.command, .left⟩]

abbrev timePIdx : ℕ := 10

abbrev commandIdx : ℕ := 11

abbrev columnCnt : ℕ := 12

abbrev columnRow : ℕ := 6

abbrev tabWidth : ℕ := 8

def column (c : ℕ) : Column := columns.getD c ⟨[], fun _ => [], .left⟩

def columnWidth (procList : List Procfs.MyProc) (c : ℕ) : ℕ :=
  widen (column c).title.length (procList.map (column c).text)

/-- Where the columns start and which of them are drawn. -/
structure Layout where
  startX : ℕ → ℕ
  startCol : ℕ
  endCol : ℕ
  maxCmd : ℤ

def initialX (c : ℕ) : ℕ := if c = 0 then 2 else 0

/-- The loop that places the columns from `i` on, with the index at which it ends. -/
def placeColumns (width : ℕ → ℕ) (cols : ℕ) (startX : ℕ → ℕ) (i : ℕ) : ℕ → (ℕ → ℕ) × ℕ
  | 0 => (startX, i)
  | fuel + 1 =>
    let startX := Function.update startX i (width (i - 1) + 2 + startX (i - 1))
    if startX i ≥ cols then (startX, i) else placeColumns width cols startX (i + 1) fuel

def layout (width : ℕ → ℕ) (cols col : ℕ) : Layout :=
  if col ≥ columnCnt - 1 then ⟨initialX, commandIdx, columnCnt, cols⟩
  else
    let (startX, i) := placeColumns width cols initialX (col + 1) (columnCnt - (col + 1))
    ⟨startX, col, i, if i = columnCnt then (cols : ℤ) - startX commandIdx else -1⟩

/-- A text that `mvprintw` is called with for a column. -/
structure Cell where
  column : ℕ
  x : ℤ
  text : List Char
  deriving DecidableEq

def Cell.stop (a : Cell) : ℤ := a.x + (a.text.length : ℤ)

def cell (l : Layout) (width : ℕ → ℕ) (c : ℕ) (text : List Char) : Cell :=
  let gap : ℤ := width c - text.length
  match (column c).align with
  | .left => ⟨c, l.startX c, text⟩
  | .right => ⟨c, l.startX c + gap, text⟩
  | .shifted => ⟨c, l.startX c + gap + 1, text⟩

def guarded (l : Layout) (width : ℕ → ℕ) (text : ℕ → List Char) : List Cell :=
  ((List.range commandIdx).filter fun c => l.startCol ≤ c ∧ c < l.endCol).map fun c =>
    cell l width c (text c)

/-- `mvprintw` draws nothing where its place is not on the terminal. -/
def drawn (cols : ℕ) (row : List Cell) : List Cell := row.filter fun a => 0 ≤ a.x ∧ a.x < cols

def titleRow (l : Layout) (width : ℕ → ℕ) (cols : ℕ) : List Cell :=
  drawn cols (guarded l width (fun c => (column c).title) ++
    [⟨commandIdx, l.startX commandIdx, (column commandIdx).title⟩])

/-- `sorted[i]->cmd[maxCmd] = '\0'` -/
def truncateCmd (maxCmd : ℤ) (cmd : List Char) : List Char :=
  if 0 ≤ maxCmd then cmd.take maxCmd.toNat else cmd

def cmdOffset (col : ℕ) : ℕ := if col < columnCnt - 1 then 0 else (col - commandIdx) * tabWidth

/-- The test that skips the command cell. -/
def skipsCommand (col : ℕ) (p : Procfs.MyProc) : Bool :=
  col = commandIdx && p.command.length < (col - commandIdx) * tabWidth

def processRow (l : Layout) (width : ℕ → ℕ) (cols col : ℕ) (p : Procfs.MyProc) : List Cell :=
  drawn cols (guarded l width (fun c => (column c).text p) ++
    if skipsCommand col p then []
    else [⟨commandIdx, l.startX commandIdx, (truncateCmd l.maxCmd p.cmd).drop (cmdOffset col)⟩])

structure Screen where
  procList : List Procfs.MyProc
  sortMode : SortMode
  reverseMode : Bool
  row : ℕ
  col : ℕ
  cols : ℕ

namespace Screen

variable (s : Screen)

def width : ℕ → ℕ := columnWidth s.procList

def shape : Layout := layout s.width s.cols s.col

def shown : List Procfs.MyProc := (sortProc s.sortMode s.reverseMode s.procList).drop s.row

/-- The title row and the process rows, as far down as the terminal goes. -/
def rows (lines : ℕ) : List (List Cell) :=
  (titleRow s.shape s.width s.cols :: s.shown.map (processRow s.shape s.width s.cols s.col)).take
    (lines - columnRow)

end Screen

def placedX (width : ℕ → ℕ) (col c : ℕ) : ℕ :=
  initialX col + ∑ j ∈ Finset.Ico col c, (width j + 2)

variable {width : ℕ → ℕ} {cols col c d i : ℕ} {startX : ℕ → ℕ}

section Placement

theorem placedX_succ (h : col ≤ c) :
    placedX width col (c + 1) = placedX width col c + (width c + 2) := by
  rw [placedX, placedX, Finset.sum_Ico_succ_top h, Nat.add_assoc]

theorem placedX_mono (h : c ≤ d) : placedX width col c ≤ placedX width col d := by
  apply Nat.add_le_add_left
  apply Finset.sum_le_sum_of_subset
  exact Finset.Ico_subset_Ico_right h

theorem placedX_lt (hc : col ≤ c) (hd : c < d) :
    placedX width col c + width c + 2 ≤ placedX width col d := by
  rw [Nat.add_assoc, ← placedX_succ hc]
  exact placedX_mono hd

theorem update_placed (hi : col ≤ i)
    (hstart : ∀ k, col ≤ k → k < i + 1 → startX k = placedX width col k) :
    ∀ k, col ≤ k → k < i + 1 + 1 →
      Function.update startX (i + 1) (width i + 2 + startX i) k = placedX width col k := by
  intro k hk hk'
  rcases Nat.lt_succ_iff_lt_or_eq.mp hk' with hk' | rfl
  · rw [Function.update_of_ne (Nat.ne_of_lt hk'), hstart k hk hk']
  · rw [Function.update_self, hstart i hi (Nat.lt_succ_self i), placedX_succ hi, Nat.add_comm]

/-- What the loop leaves that starts at column `i` and ends at column `e`. -/
structure PlacedUpTo (width : ℕ → ℕ) (cols col i : ℕ) (startX X : ℕ → ℕ) (e : ℕ) : Prop where
  bounds : i ≤ e ∧ e ≤ columnCnt
  placed : ∀ k, col ≤ k → k ≤ e → k < columnCnt → X k = placedX width col k
  inside : ∀ k, i ≤ k → k < e → placedX width col k < cols
  beyond : e < columnCnt → cols ≤ placedX width col e
  rest : ∀ k, e < k → X k = startX k

theorem placeColumns_spec {fuel : ℕ} (hi : col < i) (hfuel : i + fuel = columnCnt)
    (hstart : ∀ k, col ≤ k → k < i → startX k = placedX width col k) {X : ℕ → ℕ} {e : ℕ}
    (h : placeColumns width cols startX i fuel = (X, e)) :
    PlacedUpTo width cols col i startX X e := by
  induction fuel generalizing i startX with
  | zero =>
    obtain ⟨rfl, rfl⟩ := Prod.mk.inj h
    refine ⟨⟨Nat.le_refl _, Nat.le_of_eq hfuel⟩, fun k hk _ hk' => hstart k hk (by omega),
      fun k hk hk' => by omega, fun hlt => by omega, fun _ _ => rfl⟩
  | succ fuel ih =>
    obtain ⟨j, rfl⟩ := Nat.exists_eq_add_of_lt hi
    have hplaced := update_placed (Nat.le_add_right col j) hstart
    have hnew := hplaced (col + j + 1) (by omega) (Nat.lt_succ_self _)
    rw [placeColumns, Nat.add_sub_cancel, hnew] at h
    split at h
    case isTrue hge =>
      obtain ⟨rfl, rfl⟩ := Prod.mk.inj h
      refine ⟨⟨Nat.le_refl _, by omega⟩, fun k hk hk' _ => hplaced k hk (Nat.lt_succ_of_le hk'),
        fun k hk hk' => by omega, fun _ => hge, fun k hk => ?_⟩
      exact Function.update_of_ne (Nat.ne_of_gt hk) _ _
    case isFalse hlt =>
      have hrest := ih (by omega) (by omega) hplaced h
      refine ⟨⟨by have := hrest.bounds.1; omega, hrest.bounds.2⟩, hrest.placed, fun k hk hk' => ?_,
        hrest.beyond, fun k hk => ?_⟩
      · rcases Nat.eq_or_lt_of_le hk with rfl | hk
        · exact Nat.not_le.mp hlt
        · exact hrest.inside k hk hk'
      · rw [hrest.rest k hk]
        have := hrest.bounds.1
        exact Function.update_of_ne (by omega) _ _

end Placement

section Layout

/-- The command is drawn on its own, or it starts within the terminal like the columns before it. -/
def Placed (width : ℕ → ℕ) (cols col : ℕ) : Prop :=
  col < commandIdx → placedX width col commandIdx < cols

theorem layout_of_ge (h : commandIdx ≤ col) :
    layout width cols col = ⟨initialX, commandIdx, columnCnt, cols⟩ := if_pos h

theorem layout_placedUpTo (h : col < commandIdx) :
    PlacedUpTo width cols col (col + 1) initialX (layout width cols col).startX
      (layout width cols col).endCol := by
  have hlayout : layout width cols col = _ := if_neg (Nat.not_le.mpr h)
  rcases hp : placeColumns width cols initialX (col + 1) (columnCnt - (col + 1)) with ⟨X, e⟩
  rw [hp] at hlayout
  rw [hlayout]
  have hstart : ∀ k, col ≤ k → k < col + 1 → initialX k = placedX width col k := by
    intro k hk hk'
    obtain rfl : k = col := by omega
    simp [placedX]
  have hfuel : col + 1 + (columnCnt - (col + 1)) = columnCnt :=
    Nat.add_sub_of_le (Nat.succ_le_succ h.le)
  exact placeColumns_spec (Nat.lt_succ_self col) hfuel hstart hp

theorem layout_spec (h : col < commandIdx) : (layout width cols col).startCol = col ∧
    (∀ k, col ≤ k → k < (layout width cols col).endCol →
      (layout width cols col).startX k = placedX width col k) ∧
    ((layout width cols col).endCol = columnCnt ↔ placedX width col commandIdx < cols) ∧
    (layout width cols col).maxCmd = if (layout width cols col).endCol = columnCnt then
      (cols : ℤ) - (layout width cols col).startX commandIdx else -1 := by
  have hlayout : layout width cols col = _ := if_neg (Nat.not_le.mpr h)
  have hp : PlacedUpTo width cols col _ _ _ _ := layout_placedUpTo h
  refine ⟨by rw [hlayout], fun k hk hk' => hp.placed k hk hk'.le (hk'.trans_le hp.bounds.2), ?_,
    by rw [hlayout]⟩
  constructor
  · intro hend
    exact hp.inside commandIdx h (by rw [hend]; exact Nat.lt_succ_self _)
  · intro hlt
    by_contra hend
    have hless := lt_of_le_of_ne hp.bounds.2 hend
    exact Nat.not_lt.mpr ((hp.beyond hless).trans (placedX_mono (Nat.le_of_lt_succ hless))) hlt

end Layout

section Width

theorem title_le_columnWidth (procList : List Procfs.MyProc) (c : ℕ) :
    (column c).title.length ≤ columnWidth procList c := (widen_spec _ _).1

theorem text_le_columnWidth {procList : List Procfs.MyProc} {p : Procfs.MyProc} (hp : p ∈ procList)
    (c : ℕ) : ((column c).text p).length ≤ columnWidth procList c :=
  (widen_spec _ _).2 _ (List.mem_map_of_mem hp)

end Width

section Cells

variable {l : Layout} {text : ℕ → List Char} {row tail : List Cell}

def Before (a b : Cell) : Prop := a.column < b.column ∧ a.stop ≤ b.x

/-- A row draws only the columns of the layout, in order and apart from each other. -/
def Tidy (l : Layout) (row : List Cell) : Prop :=
  (∀ a ∈ row, l.startCol ≤ a.column ∧ a.column < l.endCol) ∧ row.Pairwise Before

/-- A cell stands within its column, up to the place by which `TIME+` is shifted. -/
theorem cell_bounds (h : (text c).length ≤ width c) : (cell l width c (text c)).column = c ∧
    (l.startX c : ℤ) ≤ (cell l width c (text c)).x ∧
    (cell l width c (text c)).stop ≤ (l.startX c : ℤ) + (width c : ℤ) + 1 := by
  unfold cell
  dsimp only
  split
  all_goals
    simp only [Cell.stop]
    exact ⟨True.intro, by omega, by omega⟩

theorem mem_guarded {a : Cell} : a ∈ guarded l width text ↔
    ∃ c, (c < commandIdx ∧ l.startCol ≤ c ∧ c < l.endCol) ∧ cell l width c (text c) = a := by
  simp [guarded]

theorem stop_le_startX
    (hX : ∀ k, l.startCol ≤ k → k < l.endCol → l.startX k = placedX width l.startCol k)
    (htext : (text c).length ≤ width c) (hc : l.startCol ≤ c) (hcd : c < d) (hd : d < l.endCol) :
    (cell l width c (text c)).stop ≤ l.startX d := by
  obtain ⟨-, -, hstop⟩ := cell_bounds (l := l) htext
  have hplaced : placedX width l.startCol c + width c + 2 ≤ placedX width l.startCol d :=
    placedX_lt hc hcd
  rw [hX c hc (hcd.trans hd)] at hstop
  rw [hX d (hc.trans hcd.le) hd]
  omega

theorem guarded_pairwise
    (hX : ∀ k, l.startCol ≤ k → k < l.endCol → l.startX k = placedX width l.startCol k)
    (htext : ∀ c, (text c).length ≤ width c) : (guarded l width text).Pairwise Before := by
  rw [guarded, List.pairwise_map]
  apply List.Pairwise.imp_of_mem _ (List.Pairwise.filter _ List.pairwise_lt_range)
  intro c d hc hd hlt
  simp only [List.mem_filter, List.mem_range, decide_eq_true_eq] at hc hd
  obtain ⟨hcol, -, -⟩ := cell_bounds (l := l) (htext c)
  obtain ⟨hcol', hx, -⟩ := cell_bounds (l := l) (htext d)
  constructor
  · rw [hcol, hcol']
    exact hlt
  · exact (stop_le_startX hX (htext c) hc.2.1 hlt hd.2.2).trans hx

theorem tidy_guarded
    (hX : ∀ k, l.startCol ≤ k → k < l.endCol → l.startX k = placedX width l.startCol k)
    (htext : ∀ c, (text c).length ≤ width c) : Tidy l (guarded l width text) := by
  refine ⟨?_, guarded_pairwise hX htext⟩
  intro a ha
  obtain ⟨c, hc, rfl⟩ := mem_guarded.mp ha
  rw [(cell_bounds (htext c)).1]
  exact hc.2

theorem tidy_concat {z : Cell}
    (hX : ∀ k, l.startCol ≤ k → k < l.endCol → l.startX k = placedX width l.startCol k)
    (hstart : l.startCol ≤ commandIdx) (hend : l.endCol = columnCnt)
    (htext : ∀ c, (text c).length ≤ width c) (hcol : z.column = commandIdx)
    (hx : z.x = l.startX commandIdx) : Tidy l (guarded l width text ++ [z]) := by
  obtain ⟨hguard, hpair⟩ := tidy_guarded hX htext
  have hlast : commandIdx < l.endCol := by rw [hend]; exact Nat.lt_succ_self _
  constructor
  · intro a ha
    rcases List.mem_append.mp ha with ha | ha
    · exact hguard a ha
    · rw [List.mem_singleton.mp ha, hcol]
      exact ⟨hstart, hlast⟩
  · rw [List.pairwise_append]
    refine ⟨hpair, List.pairwise_singleton _ _, ?_⟩
    intro a ha b hb
    obtain ⟨c, ⟨hc, hguarded⟩, rfl⟩ := mem_guarded.mp ha
    rw [List.mem_singleton.mp hb]
    constructor
    · rw [(cell_bounds (htext c)).1, hcol]
      exact hc
    · rw [hx]
      exact stop_le_startX hX (htext c) hguarded.1 hc hlast

theorem Tidy.drawn (h : Tidy l row) (cols : ℕ) : Tidy l (drawn cols row) :=
  ⟨fun a ha => h.1 a (List.mem_of_mem_filter ha), h.2.filter _⟩

theorem tidy_drawn
    (hX : ∀ k, l.startCol ≤ k → k < l.endCol → l.startX k = placedX width l.startCol k)
    (hstart : l.startCol ≤ commandIdx)
    (hend : l.endCol = columnCnt ∨ cols ≤ l.startX commandIdx)
    (htext : ∀ c, (text c).length ≤ width c)
    (htail : tail = [] ∨ ∃ z : Cell, tail = [z] ∧ z.column = commandIdx ∧
      z.x = l.startX commandIdx) : Tidy l (drawn cols (guarded l width text ++ tail)) := by
  obtain rfl | ⟨z, rfl, hcol, hx⟩ := htail
  · rw [List.append_nil]
    exact (tidy_guarded hX htext).drawn cols
  · rcases hend with hend | hend
    · exact (tidy_concat hX hstart hend htext hcol hx).drawn cols
    · have hz : drawn cols [z] = [] := by
        rw [drawn, List.filter_eq_nil_iff]
        intro a ha
        rw [List.mem_singleton.mp ha, decide_eq_true_eq, hx]
        exact fun hin => Nat.not_lt.mpr hend (Int.ofNat_lt.mp hin.2)
      rw [drawn, List.filter_append]
      change Tidy l (drawn cols _ ++ drawn cols [z])
      rw [hz, List.append_nil]
      exact (tidy_guarded hX htext).drawn cols

end Cells

/-- Every column before the command starts within the terminal. -/
def Apart (width : ℕ → ℕ) (cols col : ℕ) : Prop :=
  col < timePIdx → placedX width col timePIdx < cols

/-- The loop comes to the command column, which may start beyond the terminal. -/
theorem layout_apart (h : Apart width cols col) : (layout width cols col).startCol ≤ commandIdx ∧
    (∀ k, (layout width cols col).startCol ≤ k → k < (layout width cols col).endCol →
      (layout width cols col).startX k = placedX width (layout width cols col).startCol k) ∧
    ((layout width cols col).endCol = columnCnt ∨
      cols ≤ (layout width cols col).startX commandIdx) := by
  rcases Nat.lt_or_ge col commandIdx with hcol | hcol
  · obtain ⟨hstart, hX, -, -⟩ := @layout_spec width cols col hcol
    have hp : PlacedUpTo width cols col _ _ _ _ := layout_placedUpTo hcol
    rw [hstart]
    refine ⟨hcol.le, hX, ?_⟩
    rcases Nat.eq_or_lt_of_le hp.bounds.2 with hend | hend
    · exact Or.inl hend
    · -- the loop has ended at the command, as every column before it starts within the terminal
      have hlast : (layout width cols col).endCol = commandIdx := by
        by_contra hne
        have hle : (layout width cols col).endCol ≤ timePIdx :=
          Nat.le_of_lt_succ (lt_of_le_of_ne (Nat.le_of_lt_succ hend) hne)
        have hlt := h (lt_of_lt_of_le (Nat.lt_of_succ_le hp.bounds.1) hle)
        exact Nat.not_lt.mpr ((hp.beyond hend).trans (placedX_mono hle)) hlt
      right
      rw [hp.placed commandIdx hcol.le hlast.ge (Nat.lt_succ_self _)]
      exact hlast ▸ hp.beyond hend
  · rw [layout_of_ge hcol]
    refine ⟨Nat.le_refl _, ?_, Or.inl rfl⟩
    intro k hk hk'
    obtain rfl : k = commandIdx := Nat.le_antisymm (Nat.le_of_lt_succ hk') hk
    simp [placedX]

/-- Where the loop ends earlier, the command column is left at 0. -/
theorem layout_not_apart (h : ¬ Apart width cols col) :
    (layout width cols col).startX commandIdx = 0 ∧ (layout width cols col).endCol ≤ timePIdx := by
  obtain ⟨hcol, hge⟩ := Classical.not_imp.mp h
  have hp : PlacedUpTo width cols col _ _ _ _ := layout_placedUpTo (hcol.trans (Nat.lt_succ_self _))
  have hle : (layout width cols col).endCol ≤ timePIdx := by
    by_contra hlt
    exact hge (hp.inside timePIdx hcol (Nat.not_le.mp hlt))
  exact ⟨hp.rest commandIdx (Nat.lt_succ_of_le hle), hle⟩

/-- The columns never overlap, and only columns of the layout are drawn, if and only if the terminal
has no title row or every column before the command starts within the terminal. -/
theorem columns_apart_iff (s : Screen) (lines : ℕ) (hcols : 1 ≤ s.cols) :
    (∀ row ∈ s.rows lines, Tidy s.shape row) ↔
      lines ≤ columnRow ∨ Apart s.width s.cols s.col := by
  constructor
  · intro h
    by_contra hp
    obtain ⟨hlines, hp⟩ := not_or.mp hp
    obtain ⟨hx, hend⟩ := layout_not_apart hp
    have htitle : titleRow s.shape s.width s.cols ∈ s.rows lines := by
      obtain ⟨n, hn⟩ := Nat.exists_eq_succ_of_ne_zero
        (Nat.sub_ne_zero_of_lt (Nat.not_le.mp hlines))
      rw [Screen.rows, hn, List.take_succ_cons]
      exact List.mem_cons_self
    have hcommand : ⟨commandIdx, s.shape.startX commandIdx, (column commandIdx).title⟩ ∈
        titleRow s.shape s.width s.cols := by
      refine List.mem_filter.mpr ⟨List.mem_append_right _ (List.mem_singleton_self _), ?_⟩
      have hzero : s.shape.startX commandIdx = 0 := hx
      rw [decide_eq_true_eq, hzero]
      exact ⟨Int.le_refl 0, Int.ofNat_lt.mpr hcols⟩
    exact Nat.not_le.mpr ((h _ htitle).1 _ hcommand).2 (hend.trans (Nat.le_succ _))
  · rintro (hlines | hp) row hrow
    · rw [Screen.rows, Nat.sub_eq_zero_of_le hlines, List.take_zero] at hrow
      contradiction
    obtain ⟨hstart, hX, hend⟩ := layout_apart hp
    rcases List.mem_cons.mp (List.mem_of_mem_take hrow) with rfl | hrow
    · exact tidy_drawn hX hstart hend (title_le_columnWidth _) (Or.inr ⟨_, rfl, rfl, rfl⟩)
    · obtain ⟨p, hp, rfl⟩ := List.mem_map.mp hrow
      have hmem : p ∈ s.procList := (BubbleSort.sort_perm _ _).mem_iff.mp (List.mem_of_mem_drop hp)
      apply tidy_drawn hX hstart hend (text_le_columnWidth hmem)
      by_cases hskip : skipsCommand s.col p
      · exact Or.inl (if_pos hskip)
      · exact Or.inr ⟨_, if_neg hskip, rfl, rfl⟩

def initProc : Procfs.MyProc :=
  { idle 1 with user := ['r', 'o', 'o', 't'], stat := ['S'], time := ['0', ':', '0', '0', '.', '0', '0'],
                cmd := ['i', 'n', 'i', 't'], command := ['/', 'i', 'n', 'i', 't'] }

/-- Terminals of 80 and of 61 columns. On the latter the command starts beyond the terminal. -/
theorem columns_apart_iff_init : placedX (columnWidth [initProc]) 0 commandIdx = 61 ∧
    ∀ cols ∈ [80, 61], ∀ row ∈ Screen.rows ⟨[initProc], .cpu, false, 0, 0, cols⟩ 24,
      Tidy (Screen.shape ⟨[initProc], .cpu, false, 0, 0, cols⟩) row := by
  refine ⟨by decide +kernel, ?_⟩
  intro cols hcols
  have hapart : Apart (columnWidth [initProc]) cols 0 := by
    have h61 : placedX (columnWidth [initProc]) 0 timePIdx < 61 := by decide +kernel
    intro _
    rcases List.mem_cons.mp hcols with rfl | hcols
    · omega
    · obtain rfl := List.mem_singleton.mp hcols
      exact h61
  have hpos : 1 ≤ cols := Nat.lt_of_le_of_lt (Nat.zero_le _) (hapart (by decide))
  exact (columns_apart_iff ⟨[initProc], .cpu, false, 0, 0, cols⟩ 24 hpos).mpr (Or.inr hapart)

/-- On a terminal of 20 columns the title of the command is drawn over the first two columns. -/
theorem columns_overlap :
    titleRow (layout (columnWidth []) 20 0) (columnWidth []) 20 =
      [⟨0, 2, ['P', 'I', 'D']⟩, ⟨1, 7, ['U', 'S', 'E', 'R']⟩, ⟨2, 13, ['P', 'R']⟩,
        ⟨3, 17, ['N', 'I']⟩, ⟨commandIdx, 0, ['C', 'O', 'M', 'M', 'A', 'N', 'D']⟩] ∧
    ¬ ∀ (s : Screen) (lines : ℕ), columnRow < lines → 1 ≤ s.cols →
      ∀ row ∈ s.rows lines, Tidy s.shape row := by
  refine ⟨by decide +kernel, fun h => ?_⟩
  have htidy := h ⟨[], .cpu, false, 0, 0, 20⟩ 24 (by decide) (by decide) _ List.mem_cons_self
  have hcommand := htidy.1 ⟨commandIdx, 0, ['C', 'O', 'M', 'M', 'A', 'N', 'D']⟩ (by decide +kernel)
  exact absurd hcommand (by decide +kernel)

section Command

/-- The store into `cmd` and the printed pointer of a row's command cell lie within the array and
the text. -/
def Addressed (l : Layout) (col : ℕ) (p : Procfs.MyProc) : Prop :=
  skipsCommand col p = false → 0 ≤ l.maxCmd ∧ l.maxCmd < (cmdLen : ℤ) ∧
    cmdOffset col ≤ (truncateCmd l.maxCmd p.cmd).length

/-- The command column is placed, and the command reaches to the scroll position. -/
def Reaches (s : Screen) (p : Procfs.MyProc) : Prop :=
  Placed s.width s.cols s.col ∧ (commandIdx ≤ s.col →
    (s.col - commandIdx) * tabWidth ≤ min s.cols p.cmd.length)

theorem skipsCommand_eq_false (col : ℕ) (p : Procfs.MyProc) : skipsCommand col p = false := by
  unfold skipsCommand
  by_cases hcol : col = commandIdx <;> simp [hcol]

theorem addressed_iff {s : Screen} (hcols : s.cols < cmdLen) (p : Procfs.MyProc) :
    Addressed s.shape s.col p ↔ Reaches s p := by
  rw [Addressed, skipsCommand_eq_false, Reaches, Screen.shape]
  simp only [true_imp_iff]
  rcases Nat.lt_or_ge s.col commandIdx with hcol | hcol
  · obtain ⟨-, hX, hiff, hmax⟩ := @layout_spec s.width s.cols s.col hcol
    have hoffset : cmdOffset s.col = 0 := if_pos hcol
    by_cases hp : placedX s.width s.col commandIdx < s.cols
    · have hend := hiff.mpr hp
      rw [if_pos hend, hX commandIdx hcol.le (by rw [hend]; exact Nat.lt_succ_self _)] at hmax
      rw [hmax, hoffset]
      refine iff_of_true ⟨by omega, by omega, Nat.zero_le _⟩ ⟨fun _ => hp, fun h => ?_⟩
      exact absurd hcol (Nat.not_lt.mpr h)
    · rw [if_neg (mt hiff.mp hp)] at hmax
      rw [hmax]
      apply iff_of_false
      · rintro ⟨hneg, -⟩
        contradiction
      · rintro ⟨hplaced, -⟩
        exact hp (hplaced hcol)
  · have hplaced : Placed s.width s.cols s.col := fun h => absurd h (Nat.not_lt.mpr hcol)
    have hoffset : cmdOffset s.col = (s.col - commandIdx) * tabWidth := if_neg (Nat.not_lt.mpr hcol)
    have hstore : truncateCmd (s.cols : ℤ) p.cmd = p.cmd.take s.cols :=
      if_pos (Int.natCast_nonneg s.cols)
    rw [layout_of_ge hcol, hoffset, hstore, List.length_take]
    constructor
    · rintro ⟨-, -, hle⟩
      exact ⟨hplaced, fun _ => hle⟩
    · rintro ⟨-, hle⟩
      exact ⟨Int.natCast_nonneg _, Int.ofNat_lt.mpr hcols, hle hcol⟩

end Command

/-- A refresh of the screen, which follows a key and reads the processes anew. -/
structure Refresh where
  key : Key
  procList : List Procfs.MyProc
  sortMode : SortMode
  reverseMode : Bool
  row : ℕ

/-- `col` after a key -/
def scroll (col : ℕ) : Key → ℕ
  | .left => col - 1
  | .right => col + 1
  | _ => col

def screens (cols : ℕ) : ℕ → List Refresh → List Screen
  | _, [] => []
  | col, r :: rs =>
    ⟨r.procList, r.sortMode, r.reverseMode, r.row, scroll col r.key, cols⟩ ::
      screens cols (scroll col r.key) rs

theorem screens_cols {cols col : ℕ} {rs : List Refresh} : ∀ s ∈ screens cols col rs, s.cols = cols := by
  induction rs generalizing col with
  | nil => simp [screens]
  | cons r rs ih =>
    intro s hs
    rcases List.mem_cons.mp hs with rfl | hs
    · rfl
    · exact ih s hs

/-- On a terminal narrower than `CMD_LEN`, the command cells of all rows of a run are addressed
inside their texts if and only if on every screen of the run every row is reached. -/
theorem commands_addressed_iff (cols : ℕ) (hcols : cols < cmdLen) (rs : List Refresh) :
    (∀ s ∈ screens cols 0 rs, ∀ p ∈ s.shown, Addressed s.shape s.col p) ↔
      ∀ s ∈ screens cols 0 rs, ∀ p ∈ s.shown, Reaches s p := by
  apply forall₂_congr
  intro s hs
  have hs' : s.cols < cmdLen := by rwa [screens_cols s hs]
  exact forall₂_congr fun p _ => addressed_iff hs' p

/-- On 80 columns, after one key to the right. -/
theorem commands_addressed_iff_init : 80 < cmdLen ∧
    ∀ s ∈ screens 80 0 [⟨.right, [initProc], .cpu, false, 0⟩],
      ∀ p ∈ s.shown, Addressed s.shape s.col p := by
  refine ⟨by decide, (commands_addressed_iff 80 (by decide) _).mpr ?_⟩
  intro s hs p hp
  obtain rfl := List.mem_singleton.mp hs
  obtain rfl : p = initProc := List.mem_singleton.mp hp
  have hplaced : placedX (columnWidth [initProc]) 1 commandIdx < 80 := by decide +kernel
  exact ⟨fun _ => hplaced, fun h => absurd h (by decide)⟩

/-- The first screen of a terminal of one column stores in front of `cmd`. -/
theorem command_before_text : ¬ ∀ cols, 1 ≤ cols → cols < cmdLen → ∀ rs,
    ∀ s ∈ screens cols 0 rs, ∀ p ∈ s.shown, Addressed s.shape s.col p := by
  intro h
  have ha := h 1 (Nat.le_refl 1) (by decide) [⟨.other, [initProc], .cpu, false, 0⟩] _
    List.mem_cons_self initProc List.mem_cons_self
  exact absurd (ha (by decide)).1 (by decide)

end OperatingSystem.Mytop
