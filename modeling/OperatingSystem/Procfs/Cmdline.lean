import Mathlib.Data.List.Basic
import OperatingSystem.Procfs.Process

/-! # The command line of a process

The loop of `AddProcessList` over `/proc/pid/cmdline`, the same in `mytop.c` and `myps.c`.
The file has every argument followed by a NUL byte. The loop reads on after a NUL and
stops at a second one, so an empty argument ends the command line.
-/

namespace OperatingSystem.Procfs

abbrev nul : Char := '\x00'

/-- `strcat` into an array of `size` bytes, defined where the text and its NUL fit. -/
def strcat (size : ℕ) (s t : List Char) : Option (List Char) :=
  if s.length + t.length < size then some (s ++ t) else none

/-- The loop over the bytes that are left. A byte read at the end of the file stays 0. -/
def readCommand : List Char → List Char → Option (List Char)
  | [], command => some command
  | [c], command => if c = nul then some command else strcat cmdLen command [c]
  | c :: d :: file, command =>
    if c = nul then
      if d = nul then some command
      else do
        let command ← strcat cmdLen command [' ']
        let command ← strcat cmdLen command [d]
        readCommand file command
    else do
      let command ← strcat cmdLen command [c]
      readCommand (d :: file) command

def bracketed (cmd : List Char) : List Char := '[' :: cmd ++ [']']

/-- `proc.command`, with the name of the process for an empty command line. -/
def command (cmd file : List Char) : Option (List Char) := do
  let command ← readCommand file []
  if command = [] then strcat cmdLen [] (bracketed cmd) else some command

/-- The bytes before the first NUL that ends the file or has another NUL after it. -/
def visible : List Char → List Char
  | [] => []
  | [c] => if c = nul then [] else [c]
  | c :: d :: file => if c = nul ∧ d = nul then [] else c :: visible (d :: file)

def blank (c : Char) : Char := if c = nul then ' ' else c

/-- What the command line shows of a file. -/
def shown (file : List Char) : List Char := (visible file).map blank

/-- The file that the kernel makes of the arguments. -/
def cmdline (args : List (List Char)) : List Char := args.flatMap fun arg => arg ++ [nul]

def joined (args : List (List Char)) : List Char := [' '].intercalate args

def upToEmpty : List (List Char) → List (List Char)
  | [] => []
  | arg :: args => if arg = [] then [] else arg :: upToEmpty args

variable {args : List (List Char)} {arg cmd file text : List Char} {c d : Char} {size : ℕ}

section Loop

theorem length_of_strcat {s t r : List Char} (h : strcat size s t = some r) : r.length < size := by
  unfold strcat at h
  split at h
  case isTrue hlt =>
    obtain rfl := Option.some.inj h
    rwa [List.length_append]
  case isFalse => contradiction

theorem strcat_strcat (size : ℕ) (s t u : List Char) :
    (strcat size s t).bind (fun r => strcat size r u) = strcat size s (t ++ u) := by
  unfold strcat
  by_cases h : s.length + t.length < size
  · simp [h, Nat.add_assoc]
  · have hu : ¬ s.length + (t ++ u).length < size := by
      rw [List.length_append]
      omega
    rw [if_neg h, if_neg hu]
    rfl

theorem shown_cons (hc : c ≠ nul) : shown (c :: file) = c :: shown file := by
  cases file <;> simp [shown, visible, blank, hc]

theorem shown_nul_cons (hd : d ≠ nul) : shown (nul :: d :: file) = ' ' :: d :: shown file := by
  rw [← shown_cons hd]
  simp [shown, visible, blank, hd]

theorem bind_readCommand {s : List Char} {o : Option (List Char)}
    (ih : ∀ t, t.length < cmdLen → readCommand file t = strcat cmdLen t (shown file))
    (ho : o = strcat cmdLen text s) :
    (o.bind fun t => readCommand file t) = strcat cmdLen text (s ++ shown file) := by
  subst ho
  rw [← strcat_strcat]
  apply Option.bind_congr
  intro t ht
  exact ih t (length_of_strcat ht)

/-- The loop appends the visible bytes of the file, where they fit. -/
theorem readCommand_eq (h : text.length < cmdLen) :
    readCommand file text = strcat cmdLen text (shown file) := by
  fun_induction readCommand file text with
  | case1 text => simp [shown, visible, strcat, h]
  | case2 text => simp [shown, visible, strcat, h]
  | case3 c text hc => simp [shown, visible, strcat, blank, hc]
  | case4 text file => simp [shown, visible, strcat, h]
  | case5 d text file hd ih =>
    rw [shown_nul_cons hd]
    change (Option.bind _ fun r => Option.bind _ fun t => readCommand _ t) = _
    rw [← Option.bind_assoc]
    exact bind_readCommand ih (strcat_strcat cmdLen _ [' '] [d])
  | case6 c d file text hc ih =>
    rw [shown_cons hc]
    exact bind_readCommand ih rfl

end Loop

section Arguments

theorem joined_cons (arg : List Char) (args : List (List Char)) :
    joined (arg :: args) = arg ++ args.flatMap fun arg => ' ' :: arg := by
  induction args generalizing arg with
  | nil => simp [joined, List.intercalate]
  | cons b args ih =>
    have hb := ih b
    simp only [joined, List.intercalate, List.intersperse, List.flatten_cons] at hb ⊢
    rw [hb]
    simp

theorem shown_append (harg : nul ∉ arg) : shown (arg ++ file) = arg ++ shown file := by
  induction arg with
  | nil => rfl
  | cons c arg ih =>
    rw [List.mem_cons, not_or] at harg
    rw [List.cons_append, shown_cons (Ne.symm harg.1), ih harg.2, List.cons_append]

theorem shown_nul_cmdline (hargs : ∀ arg ∈ args, nul ∉ arg) : shown (nul :: cmdline args) =
    (upToEmpty args).flatMap fun arg => ' ' :: arg := by
  induction args with
  | nil => simp [cmdline, shown, visible, upToEmpty]
  | cons arg args ih =>
    obtain ⟨harg, hrest⟩ := List.forall_mem_cons.mp hargs
    rcases arg with - | ⟨d, arg⟩
    · simp [cmdline, shown, visible, upToEmpty]
    · rw [List.mem_cons, not_or] at harg
      have hfile : nul :: cmdline ((d :: arg) :: args) =
          nul :: d :: (arg ++ nul :: cmdline args) := by simp [cmdline]
      rw [hfile, shown_nul_cons (Ne.symm harg.1), shown_append harg.2, ih hrest]
      simp [upToEmpty]

theorem shown_cmdline (harg : nul ∉ arg) (hargs : ∀ arg ∈ args, nul ∉ arg) :
    shown (cmdline (arg :: args)) = joined (arg :: upToEmpty args) := by
  have hfile : cmdline (arg :: args) = arg ++ nul :: cmdline args := by simp [cmdline]
  rw [hfile, shown_append harg, shown_nul_cmdline hargs, joined_cons]

/-- The arguments after the cut are there if and only if one of them is empty. -/
theorem exists_cut (args : List (List Char)) :
    ∃ cut, args = upToEmpty args ++ cut ∧ (cut = [] ↔ ∀ arg ∈ args, arg ≠ []) := by
  induction args with
  | nil => exact ⟨[], rfl, by simp⟩
  | cons arg args ih =>
    by_cases harg : arg = []
    · exact ⟨arg :: args, by simp [upToEmpty, harg], by simp [harg]⟩
    · obtain ⟨cut, hcut, hiff⟩ := ih
      refine ⟨cut, ?_, ?_⟩
      · rw [upToEmpty, if_neg harg, List.cons_append, ← hcut]
      · rw [hiff, List.forall_mem_cons]
        exact (and_iff_right harg).symm

end Arguments

theorem command_eq {r : List Char} (hr : shown file = r) (hlen : r.length < cmdLen)
    (hcmd : cmd.length + 2 < cmdLen) :
    command cmd file = some (if r = [] then bracketed cmd else r) := by
  have hread : readCommand file [] = some r := by
    rw [readCommand_eq (by decide), hr, strcat, if_pos (by simpa using hlen), List.nil_append]
  have hname : strcat cmdLen [] (bracketed cmd) = some (bracketed cmd) := by
    rw [strcat, if_pos (by simpa [bracketed] using hcmd), List.nil_append]
  rw [command, hread]
  change (if r = [] then strcat cmdLen [] (bracketed cmd) else some r) = _
  split
  case isTrue => exact hname
  case isFalse => rfl

theorem length_shown (file : List Char) : (shown file).length = (visible file).length :=
  List.length_map _

theorem command_of_le (h : cmdLen ≤ (visible file).length) :
    command cmd file = none := by
  have hread : readCommand file [] = none := by
    rw [readCommand_eq (by decide), strcat, if_neg]
    rw [length_shown, List.length_nil, Nat.zero_add]
    exact Nat.not_lt.mpr h
  rw [command, hread]
  rfl

theorem command_of_lt (hcmd : cmd.length < tokenLen) (h : (visible file).length < cmdLen) :
    command cmd file = some (if shown file = [] then bracketed cmd else shown file) := by
  have hname : cmd.length + 2 < cmdLen := (Nat.add_lt_add_right hcmd 2).trans (by decide)
  exact command_eq rfl (by rwa [length_shown]) hname

/-- The command line of a process is its arguments separated by blanks if and only if no argument
after the first is empty. -/
theorem command_joined_iff (cmd : List Char) (args : List (List Char)) (hne : args ≠ [])
    (hargs : ∀ arg ∈ args, nul ∉ arg) (hlen : (joined args).length < cmdLen)
    (hcmd : cmd.length < tokenLen) :
    command cmd (cmdline args) = some (if joined args = [] then bracketed cmd else joined args) ↔
      ∀ arg ∈ args.tail, arg ≠ [] := by
  rcases args with - | ⟨arg, args⟩
  · contradiction
  obtain ⟨harg, hrest⟩ := List.forall_mem_cons.mp hargs
  obtain ⟨cut, hcut, hiff⟩ := exists_cut args
  have hsplit : joined (arg :: args) =
      joined (arg :: upToEmpty args) ++ cut.flatMap fun arg => ' ' :: arg := by
    conv_lhs => rw [hcut]
    rw [joined_cons, joined_cons, List.flatMap_append, List.append_assoc]
  have hshown := shown_cmdline harg hrest
  generalize joined (arg :: upToEmpty args) = r at hsplit hshown
  have hrlen : r.length < cmdLen := by
    rw [hsplit, List.length_append] at hlen
    omega
  have hname : cmd.length + 2 < cmdLen := (Nat.add_lt_add_right hcmd 2).trans (by decide)
  rw [command_eq hshown hrlen hname, List.tail_cons, ← hiff, hsplit, Option.some.injEq]
  constructor
  · intro h
    -- what is missing starts with a blank, so neither a shorter text nor the name can stand for it
    rcases cut with - | ⟨b, cut⟩
    · rfl
    · rcases r with - | ⟨c, r⟩ <;> simp [bracketed] at h
  · rintro rfl
    simp

/-- The arguments `a` and `b` with an empty one between them. -/
theorem command_drops : ¬ ∀ args : List (List Char), args ≠ [] → (∀ arg ∈ args, nul ∉ arg) →
    (joined args).length < cmdLen → command ['a'] (cmdline args) =
      some (if joined args = [] then bracketed ['a'] else joined args) := by
  intro h
  exact absurd (h [['a'], [], ['b']] (by decide) (by decide) (by decide)) (by decide)

/-- An empty first argument is kept. -/
theorem command_joined_iff_first :
    command ['s', 'h'] (cmdline [[], ['x']]) = some [' ', 'x'] := by
  have h := (command_joined_iff ['s', 'h'] [[], ['x']] (by decide) (by decide) (by decide)
    (by decide)).mpr (by decide)
  exact h.trans (by decide)

end OperatingSystem.Procfs
