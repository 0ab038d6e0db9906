import Mathlib.Algebra.Order.Group.Unbundled.Int
import Mathlib.Data.List.TakeWhile
import OperatingSystem.Mytop.CpuTime
import OperatingSystem.Procfs.Cmdline

/-! # The stat file of a process

The tokens that `AddProcessList` scans from `/proc/pid/stat` and the fields that it
takes from them by position. The name of the process stands between parentheses in the
file, so a blank in it shifts every field after it. A time that has no calendar date ends
the program before the name is stored.
-/

namespace OperatingSystem.Procfs

open Libc
open Mytop (pidMax)

abbrev maxToken : ℕ := 22

/-- The conversion `%s`: the token, empty at the end of the file, and what is left. -/
def scanToken (file : List Char) : List Char × List Char :=
  let text := file.dropWhile isspace
  (text.takeWhile fun c => !isspace c, text.dropWhile fun c => !isspace c)

/-- `n` tokens of a file. -/
def scanTokens (file : List Char) : ℕ → List (List Char)
  | 0 => []
  | n + 1 => (scanToken file).1 :: scanTokens (scanToken file).2 n

def statToken (file : List Char) (i : ℕ) : List Char := (scanTokens file maxToken).getD i []

/-- `sscanf` with `(%s`, and the last character cut off. -/
def scanCmd : List Char → List Char
  | '(' :: text => (scanToken text).1.dropLast
  | _ => []

/-- What both programs take from the file. -/
structure Stat where
  pid : BitVec 64
  ppid : BitVec 64
  utime : BitVec 64
  stime : BitVec 64
  startTime : BitVec 64
  priority : ℤ
  nice : ℤ
  stat : List Char
  cmd : List Char
  deriving DecidableEq

/-- The fields by their positions. -/
def readStat (file : List Char) : Stat where
  pid := ulong (atoi (statToken file 0))
  ppid := ulong (atoi (statToken file 3))
  utime := ulong (atoi (statToken file 13))
  stime := ulong (atoi (statToken file 14))
  startTime := ulong (atoi (statToken file 21))
  priority := (atoi (statToken file 17)).toInt
  nice := (atoi (statToken file 18)).toInt
  stat := statToken file 2
  cmd := scanCmd (statToken file 1)

/-- The seconds since 1970 whose year fits into the `int` of a `struct tm`. `gmtime` and `localtime`
return `NULL` for the others. -/
def hasTm (time : ℤ) : Bool := -67768040609740800 ≤ time && time ≤ 67768036191676799

/-- The clock of the machine: `time(NULL) - uptime`, within a billion years of 1970, and what
`localtime` adds to a time. -/
structure Clock where
  boot : BitVec 64
  offset : ℤ → ℤ
  boot_bounds : -2 ^ 55 < boot.toInt ∧ boot.toInt < 2 ^ 55
  offset_bounds : ∀ time, -2 ^ 20 < offset time ∧ offset time < 2 ^ 20

/-- Neither `tmStart` nor `tmCpuTime` is `NULL`; both are read without a test. -/
def dated (k : Clock) (s : Stat) : Bool :=
  let start := (k.boot + s.startTime / BitVec.ofNat 64 hertz).toInt
  let cpuTime := ((s.utime + s.stime) / BitVec.ofNat 64 hertz).toInt
  hasTm (start + k.offset start) && hasTm cpuTime

/-- The times are not negative as `atoi` reads them. -/
def TimesNonneg (file : List Char) : Prop :=
  0 ≤ (atoi (statToken file 13)).toInt + (atoi (statToken file 14)).toInt ∧
    0 ≤ (atoi (statToken file 21)).toInt

instance (file : List Char) : Decidable (TimesNonneg file) := inferInstanceAs (Decidable (_ ∧ _))

/-- What `AddProcessList` of `mytop.c` has stored of the file with `proc.cmd`. By then it has used
the pid as an index of `cpuTimeTable`. -/
def mytopStat (k : Clock) (file : List Char) : Option Stat :=
  let s := readStat file
  if s.pid.toNat < pidMax ∧ dated k s then some s else none

/-- What `myps.c` takes besides. -/
structure MypsStat extends Stat where
  sid : BitVec 32
  threadCnt : BitVec 32
  tpgid : BitVec 32
  deriving DecidableEq

/-- The state with the flags of `myps.c`. -/
def flagged (vmLck : ℕ) (s : Stat) (sid threadCnt tpgid : BitVec 32) : List Char :=
  s.stat ++ (if s.nice < 0 then ['<'] else if s.nice > 0 then ['N'] else []) ++
    (if vmLck > 0 then ['L'] else []) ++ (if ulong sid = s.pid then ['s'] else []) ++
    (if threadCnt.toInt > 1 then ['l'] else []) ++ (if tpgid ≠ -1 then ['+'] else [])

/-- What `AddProcessList` of `myps.c` has stored of the file with `proc.cmd`. -/
def mypsStat (k : Clock) (vmLck : ℕ) (file : List Char) : Option MypsStat :=
  let s := readStat file
  let sid := atoi (statToken file 5)
  let threadCnt := atoi (statToken file 19)
  let tpgid := atoi (statToken file 7)
  if dated k s then
    some { s with stat := flagged vmLck s sid threadCnt tpgid, sid, threadCnt, tpgid }
  else none

abbrev CInt : Type := { n : ℤ // -2 ^ 31 ≤ n ∧ n < 2 ^ 31 }

/-- A process as the kernel reports it. -/
structure StatRecord where
  pid : CInt
  comm : List Char
  state : Char
  ppid : CInt
  pgrp : CInt
  session : CInt
  ttyNr : CInt
  tpgid : CInt
  flags : CInt
  minflt : CInt
  cminflt : CInt
  majflt : CInt
  cmajflt : CInt
  utime : CInt
  stime : CInt
  cutime : CInt
  cstime : CInt
  priority : CInt
  nice : CInt
  numThreads : CInt
  itrealvalue : CInt
  starttime : CInt
  more : List CInt
  comm_pos : 0 < comm.length
  comm_le : comm.length ≤ 15
  comm_nul : nul ∉ comm
  state_printed : isspace state = false

def StatRecord.numbers (r : StatRecord) : List CInt :=
  [r.ppid, r.pgrp, r.session, r.ttyNr, r.tpgid, r.flags, r.minflt, r.cminflt, r.majflt, r.cmajflt,
    r.utime, r.stime, r.cutime, r.cstime, r.priority, r.nice, r.numThreads, r.itrealvalue,
    r.starttime] ++ r.more

def StatRecord.texts (r : StatRecord) : List (List Char) :=
  signedText r.pid :: ('(' :: r.comm ++ [')']) :: [r.state] ::
    r.numbers.map fun n => signedText n

def StatRecord.render (r : StatRecord) : List Char := joined r.texts ++ ['\n']

/-- The record's own fields. -/
def StatRecord.fields (r : StatRecord) : Stat where
  pid := BitVec.ofInt 64 r.pid
  ppid := BitVec.ofInt 64 r.ppid
  utime := BitVec.ofInt 64 r.utime
  stime := BitVec.ofInt 64 r.stime
  startTime := BitVec.ofInt 64 r.starttime
  priority := r.priority
  nice := r.nice
  stat := [r.state]
  cmd := r.comm

/-- What `myps.c` makes of the record's own fields. -/
def StatRecord.mypsFields (r : StatRecord) (vmLck : ℕ) : MypsStat :=
  let sid := BitVec.ofInt 32 r.session
  let threadCnt := BitVec.ofInt 32 r.numThreads
  let tpgid := BitVec.ofInt 32 r.tpgid
  { r.fields with stat := flagged vmLck r.fields sid threadCnt tpgid, sid, threadCnt, tpgid }

variable {r : StatRecord} {file w : List Char} {ws : List (List Char)} {n : ℕ}

section Numbers

theorem isDigit_not_isspace {c : Char} (h : c.isDigit = true) : isspace c = false := by
  have h48 : 48 ≤ c.toNat := (Char.isDigit_iff_toNat.mp h).1
  simp only [isspace, Bool.or_eq_false_iff, Bool.and_eq_false_iff, decide_eq_false_iff_not]
  constructor
  · rintro rfl
    exact absurd h48 (by decide)
  · right
    intro hle
    have h13 : c.toNat ≤ 13 := hle
    omega

theorem digits_eq_ofDigitChars {text : List Char} (h : ∀ c ∈ text, c.isDigit = true) (n : ℕ) :
    digits n text = Nat.ofDigitChars 10 text n := by
  induction text generalizing n with
  | nil => simp [digits]
  | cons c text ih =>
    obtain ⟨hc, htext⟩ := List.forall_mem_cons.mp h
    rw [digits, if_pos hc, ih htext, Nat.ofDigitChars_cons]
    rfl

theorem isDigit_unsignedText {n : ℕ} {c : Char} (h : c ∈ unsignedText n) : c.isDigit = true :=
  Nat.isDigit_of_mem_toDigits (by decide) (by decide) h

theorem digits_unsignedText (n : ℕ) : digits 0 (unsignedText n) = n := by
  rw [digits_eq_ofDigitChars fun c hc => isDigit_unsignedText hc]
  exact Nat.ofDigitChars_ten_toDigits

theorem unsignedText_ne_nil (n : ℕ) : unsignedText n ≠ [] := Nat.toDigits_ne_nil

theorem signedText_ne_nil (n : ℤ) : signedText n ≠ [] := by
  unfold signedText
  split
  case isTrue => exact List.cons_ne_nil _ _
  case isFalse => exact unsignedText_ne_nil _

theorem signedText_not_isspace {n : ℤ} : ∀ c ∈ signedText n, isspace c = false := by
  intro c hc
  unfold signedText at hc
  split at hc
  case isTrue =>
    rcases List.mem_cons.mp hc with rfl | hc
    · rfl
    · exact isDigit_not_isspace (isDigit_unsignedText hc)
  case isFalse => exact isDigit_not_isspace (isDigit_unsignedText hc)

theorem numeral_digit {c : Char} {text : List Char} (hc : c.isDigit = true) :
    numeral (c :: text) = digits 0 (c :: text) := by
  have hdrop : (c :: text).dropWhile isspace = c :: text := by
    rw [List.dropWhile_cons, isDigit_not_isspace hc]
    rfl
  rw [numeral, hdrop]
  split
  case h_1 heq =>
    obtain ⟨rfl, -⟩ := List.cons.inj heq
    exact absurd hc (by decide)
  case h_2 heq =>
    obtain ⟨rfl, -⟩ := List.cons.inj heq
    exact absurd hc (by decide)
  case h_3 => rfl

theorem numeral_signedText (n : ℤ) : numeral (signedText n) = n := by
  unfold signedText
  split
  case isTrue h =>
    have hneg : numeral ('-' :: unsignedText n.natAbs) = -(digits 0 (unsignedText n.natAbs) : ℤ) :=
      rfl
    rw [hneg, digits_unsignedText]
    omega
  case isFalse h =>
    rcases ht : unsignedText n.natAbs with - | ⟨c, text⟩
    · exact absurd ht (unsignedText_ne_nil _)
    · have hc : c.isDigit = true := isDigit_unsignedText (ht ▸ List.mem_cons_self)
      rw [numeral_digit hc, ← ht, digits_unsignedText]
      omega

theorem toInt_atoi (n : CInt) : (atoi (signedText n)).toInt = n := by
  obtain ⟨n, hlow, hhigh⟩ := n
  have hclamp : max (-2 ^ 63) (min n (2 ^ 63 - 1)) = n := by omega
  rw [atoi, numeral_signedText, toInt, hclamp, BitVec.toInt_ofInt]
  exact Int.bmod_eq_of_le (by omega) (by omega)

theorem atoi_signedText (n : CInt) : atoi (signedText n) = BitVec.ofInt 32 n := by
  apply BitVec.eq_of_toInt_eq
  have hlow := n.2.1
  have hhigh := n.2.2
  rw [toInt_atoi, BitVec.toInt_ofInt]
  exact (Int.bmod_eq_of_le (by omega) (by omega)).symm

theorem ulong_atoi (n : CInt) : ulong (atoi (signedText n)) = BitVec.ofInt 64 n := by
  rw [ulong, BitVec.signExtend, toInt_atoi]

end Numbers

section Times

variable {k : Clock} {s : Stat} {x y z : BitVec 32} {n : ℤ}

theorem toInt_ulong (x : BitVec 32) : (ulong x).toInt = x.toInt :=
  BitVec.toInt_signExtend_of_le (by decide)

theorem hasTm_of_bounds (h : -2 ^ 55 - 2 ^ 34 < n) (h' : n < 2 ^ 55 + 2 ^ 34) :
    hasTm n = true := by
  simp only [hasTm, Bool.and_eq_true, decide_eq_true_eq]
  omega

theorem hasTm_of_lt (h : 2 ^ 56 < n) : hasTm n = false := by
  simp only [hasTm, Bool.and_eq_false_iff, decide_eq_false_iff_not]
  omega

/-- A negative number of ticks is read as a long time. -/
theorem seconds_bounds {t : BitVec 64} (h : -2 ^ 32 ≤ t.toInt) (h' : t.toInt < 2 ^ 32) :
    (0 ≤ t.toInt → 0 ≤ (t / BitVec.ofNat 64 hertz).toInt ∧
        (t / BitVec.ofNat 64 hertz).toInt < 2 ^ 32) ∧
      (t.toInt < 0 → 2 ^ 57 < (t / BitVec.ofNat 64 hertz).toInt ∧
        (t / BitVec.ofNat 64 hertz).toInt < 2 ^ 58) := by
  have hdiv : (t / BitVec.ofNat 64 hertz).toNat = t.toNat / 100 := BitVec.toNat_udiv
  have hlt := t.isLt
  have hsmall : (t / BitVec.ofNat 64 hertz).toInt = t.toNat / 100 := by
    rw [BitVec.toInt_eq_toNat_of_lt (by omega), hdiv]
    rfl
  rw [BitVec.toInt_eq_toNat_cond] at h h' ⊢
  rw [hsmall]
  split at h <;> constructor <;> intro hsign <;> omega

theorem hasTm_cpuTime_iff :
    hasTm ((ulong x + ulong y) / BitVec.ofNat 64 hertz).toInt = true ↔ 0 ≤ x.toInt + y.toInt := by
  have hx := x.toInt_lt
  have hx' := x.le_toInt
  have hy := y.toInt_lt
  have hy' := y.le_toInt
  have hsum : (ulong x + ulong y).toInt = x.toInt + y.toInt := by
    rw [BitVec.toInt_add, toInt_ulong, toInt_ulong]
    exact Int.bmod_eq_of_le (by omega) (by omega)
  obtain ⟨hpos, hneg⟩ := @seconds_bounds (ulong x + ulong y) (by omega) (by omega)
  rw [hsum] at hpos hneg
  constructor
  · intro h
    by_contra hlt
    rw [hasTm_of_lt (by have := hneg (by omega); omega)] at h
    contradiction
  · intro hle
    have := hpos hle
    exact hasTm_of_bounds (by omega) (by omega)

theorem hasTm_start_iff (k : Clock) (start : ℤ)
    (hstart : start = (k.boot + ulong z / BitVec.ofNat 64 hertz).toInt) :
    hasTm (start + k.offset start) = true ↔ 0 ≤ z.toInt := by
  have hz := z.toInt_lt
  have hz' := z.le_toInt
  have hulong := toInt_ulong z
  obtain ⟨hpos, hneg⟩ := @seconds_bounds (ulong z) (by omega) (by omega)
  obtain ⟨hboot, hboot'⟩ := k.boot_bounds
  obtain ⟨hoffset, hoffset'⟩ := k.offset_bounds start
  generalize ht : (ulong z / BitVec.ofNat 64 hertz).toInt = t at hpos hneg
  rw [hulong] at hpos hneg
  have hsum : start = k.boot.toInt + t := by
    rw [hstart, BitVec.toInt_add, ht]
    rcases lt_or_ge z.toInt 0 with h | h
    · have := hneg h
      exact Int.bmod_eq_of_le (by omega) (by omega)
    · have := hpos h
      exact Int.bmod_eq_of_le (by omega) (by omega)
  constructor
  · intro h
    by_contra hlt
    rw [hasTm_of_lt (by have := hneg (by omega); omega)] at h
    contradiction
  · intro hle
    have := hpos hle
    exact hasTm_of_bounds (by omega) (by omega)

/-- The dates exist if and only if the times are not negative as `int`s. -/
theorem dated_iff (k : Clock) (hutime : s.utime = ulong x) (hstime : s.stime = ulong y)
    (hstart : s.startTime = ulong z) :
    dated k s = true ↔ 0 ≤ x.toInt + y.toInt ∧ 0 ≤ z.toInt := by
  unfold dated
  rw [hutime, hstime, hstart, Bool.and_eq_true, hasTm_start_iff k _ rfl, hasTm_cpuTime_iff]
  exact and_comm

end Times

section Tokens

def Word (w : List Char) : Prop := w ≠ [] ∧ ∀ c ∈ w, isspace c = false

theorem scanToken_word {c : Char} (hw : Word w) (hc : isspace c = true) :
    scanToken (w ++ c :: file) = (w, c :: file) := by
  obtain ⟨hne, hspace⟩ := hw
  have hdrop : (w ++ c :: file).dropWhile isspace = w ++ c :: file := by
    rcases w with - | ⟨d, w⟩
    · contradiction
    · rw [List.cons_append, List.dropWhile_cons, hspace d List.mem_cons_self]
      rfl
  have hall : ∀ d ∈ w, (!isspace d) = true := fun d hd => by simp [hspace d hd]
  rw [scanToken, hdrop]
  simp [List.takeWhile_append_of_pos hall, List.dropWhile_append_of_pos hall, hc]

theorem scanToken_all (hw : Word w) : scanToken w = (w, []) := by
  obtain ⟨hne, hspace⟩ := hw
  rcases w with - | ⟨d, w⟩
  · contradiction
  · have hd := hspace d List.mem_cons_self
    simpa [scanToken, hd] using fun c hc => hspace c (List.mem_cons_of_mem d hc)

theorem scanTokens_blank (file : List Char) (n : ℕ) :
    scanTokens (' ' :: file) n = scanTokens file n := by
  cases n <;> rfl

theorem scanTokens_word {c : Char} (hw : Word w) (hc : isspace c = true) (n : ℕ) :
    scanTokens (w ++ c :: file) (n + 1) = w :: scanTokens (c :: file) n := by
  rw [scanTokens, scanToken_word hw hc]

theorem line_cons (ws : List (List Char)) : ∃ c file, isspace c = true ∧
    (ws.flatMap fun w => ' ' :: w) ++ ['\n'] = c :: file := by
  cases ws with
  | nil => exact ⟨'\n', [], rfl, rfl⟩
  | cons w ws => exact ⟨' ', _, rfl, rfl⟩

theorem scanTokens_line (hws : ∀ w ∈ ws, Word w) (hn : n ≤ ws.length) :
    scanTokens ((ws.flatMap fun w => ' ' :: w) ++ ['\n']) n = ws.take n := by
  induction ws generalizing n with
  | nil =>
    obtain rfl := Nat.le_zero.mp hn
    rfl
  | cons w ws ih =>
    cases n with
    | zero => rfl
    | succ n =>
      obtain ⟨hw, hrest⟩ := List.forall_mem_cons.mp hws
      obtain ⟨c, file, hc, hline⟩ := line_cons ws
      have hih := ih hrest (Nat.le_of_succ_le_succ hn)
      rw [List.flatMap_cons, List.append_assoc, List.cons_append, scanTokens_blank, hline,
        scanTokens_word hw hc, ← hline, hih, List.take_succ_cons]

/-- Words separated by blanks are the tokens of their line. -/
theorem scanTokens_joined (hw : Word w) (hws : ∀ w ∈ ws, Word w) (hn : n ≤ ws.length) :
    scanTokens (joined (w :: ws) ++ ['\n']) (n + 1) = w :: ws.take n := by
  obtain ⟨c, file, hc, hline⟩ := line_cons ws
  rw [joined_cons, List.append_assoc, hline, scanTokens_word hw hc, ← hline,
    scanTokens_line hws hn]

theorem scanToken_not_isspace (file : List Char) : ∀ c ∈ (scanToken file).1, isspace c = false := by
  intro c hc
  have h := List.mem_takeWhile_imp hc
  simpa using h

theorem scanCmd_not_isspace (token : List Char) : ∀ c ∈ scanCmd token, isspace c = false := by
  intro c hc
  unfold scanCmd at hc
  split at hc
  case h_1 text => exact scanToken_not_isspace text c (List.mem_of_mem_dropLast hc)
  case h_2 => contradiction

end Tokens

section Record

theorem word_signedText (n : ℤ) : Word (signedText n) :=
  ⟨signedText_ne_nil n, signedText_not_isspace⟩

theorem texts_word (h : ∀ c ∈ r.comm, isspace c = false) : ∀ w ∈ r.texts, Word w := by
  intro w hw
  simp only [StatRecord.texts, List.mem_cons, List.mem_map] at hw
  rcases hw with rfl | rfl | rfl | ⟨n, -, rfl⟩
  · exact word_signedText _
  · refine ⟨List.cons_ne_nil _ _, ?_⟩
    intro c hc
    simp only [List.cons_append, List.mem_cons, List.mem_append, List.not_mem_nil, or_false] at hc
    rcases hc with rfl | hc | rfl
    · rfl
    · exact h c hc
    · rfl
  · refine ⟨List.cons_ne_nil _ _, ?_⟩
    intro c hc
    rw [List.mem_singleton.mp hc]
    exact r.state_printed
  · exact word_signedText _

theorem statToken_render (h : ∀ c ∈ r.comm, isspace c = false) {i : ℕ} (hi : i < maxToken) :
    statToken r.render i = r.texts.getD i [] := by
  obtain ⟨hpid, hrest⟩ := List.forall_mem_cons.mp (texts_word h)
  have hlen : 21 ≤ (('(' :: r.comm ++ [')']) :: [r.state] ::
      r.numbers.map fun n => signedText n).length := by
    simp [StatRecord.numbers]
  have htokens : scanTokens r.render maxToken = r.texts.take maxToken :=
    scanTokens_joined hpid hrest hlen
  rw [statToken, htokens, List.getD_eq_getElem?_getD, List.getElem?_take_of_lt hi,
    ← List.getD_eq_getElem?_getD]

theorem scanCmd_comm (h : ∀ c ∈ r.comm, isspace c = false) :
    scanCmd ('(' :: r.comm ++ [')']) = r.comm := by
  have hw : Word (r.comm ++ [')']) := by
    constructor
    · simp
    · intro c hc
      rcases List.mem_append.mp hc with hc | hc
      · exact h c hc
      · rw [List.mem_singleton.mp hc]
        rfl
  rw [List.cons_append, scanCmd, scanToken_all hw, List.dropLast_concat]

theorem statToken_number (h : ∀ c ∈ r.comm, isspace c = false) {i : ℕ} (hi : i < maxToken)
    {n : CInt} (hn : r.texts.getD i [] = signedText n) : statToken r.render i = signedText n :=
  (statToken_render h hi).trans hn

theorem readStat_render (h : ∀ c ∈ r.comm, isspace c = false) : readStat r.render = r.fields := by
  have hulong (i : ℕ) (n : CInt) (hi : i < maxToken) (hn : r.texts.getD i [] = signedText n) :
      ulong (atoi (statToken r.render i)) = BitVec.ofInt 64 n := by
    rw [statToken_number h hi hn, ulong_atoi]
  have hint (i : ℕ) (n : CInt) (hi : i < maxToken) (hn : r.texts.getD i [] = signedText n) :
      (atoi (statToken r.render i)).toInt = n := by
    rw [statToken_number h hi hn, toInt_atoi]
  have hstate : statToken r.render 2 = [r.state] := by
    rw [statToken_render h (by decide)]
    rfl
  have hcomm : statToken r.render 1 = '(' :: r.comm ++ [')'] := by
    rw [statToken_render h (by decide)]
    rfl
  rw [readStat, hulong 0 r.pid (by decide) rfl, hulong 3 r.ppid (by decide) rfl,
    hulong 13 r.utime (by decide) rfl, hulong 14 r.stime (by decide) rfl,
    hulong 21 r.starttime (by decide) rfl, hint 17 r.priority (by decide) rfl,
    hint 18 r.nice (by decide) rfl, hstate, hcomm, scanCmd_comm h]
  rfl

theorem dated_fields (k : Clock) (r : StatRecord) :
    dated k r.fields = true ↔ 0 ≤ r.utime.1 + r.stime.1 ∧ 0 ≤ r.starttime.1 := by
  have hulong (n : CInt) : BitVec.ofInt 64 n = ulong (BitVec.ofInt 32 n) := by
    rw [← ulong_atoi, atoi_signedText]
  have hint (n : CInt) : (BitVec.ofInt 32 n).toInt = n := by rw [← atoi_signedText, toInt_atoi]
  rw [dated_iff k (hulong r.utime) (hulong r.stime) (hulong r.starttime), hint, hint, hint]

theorem toNat_pid_lt : r.fields.pid.toNat < pidMax ↔ 0 ≤ r.pid.1 ∧ r.pid.1 < pidMax := by
  obtain ⟨hlow, hhigh⟩ := r.pid.2
  have hpid : r.fields.pid.toNat = (r.pid.1 % 2 ^ 64).toNat := BitVec.toNat_ofInt _
  have hmax : pidMax = 32768 := rfl
  rw [hpid, hmax]
  constructor <;> intro h <;> omega

theorem mytopStat_render (h : ∀ c ∈ r.comm, isspace c = false) (k : Clock) :
    mytopStat k r.render = if (0 ≤ r.pid.1 ∧ r.pid.1 < pidMax) ∧
      0 ≤ r.utime.1 + r.stime.1 ∧ 0 ≤ r.starttime.1 then some r.fields else none := by
  unfold mytopStat
  rw [readStat_render h]
  simp only [toNat_pid_lt, dated_fields]

theorem mypsStat_render (h : ∀ c ∈ r.comm, isspace c = false) (k : Clock) (vmLck : ℕ) :
    mypsStat k vmLck r.render = if 0 ≤ r.utime.1 + r.stime.1 ∧ 0 ≤ r.starttime.1 then
      some (r.mypsFields vmLck) else none := by
  have hatoi {i : ℕ} (n : CInt) (hi : i < maxToken) (hn : r.texts.getD i [] = signedText n) :
      atoi (statToken r.render i) = BitVec.ofInt 32 n := by
    rw [statToken_number h hi hn, atoi_signedText]
  unfold mypsStat
  rw [readStat_render h, hatoi r.session (by decide) rfl, hatoi r.numThreads (by decide) rfl,
    hatoi r.tpgid (by decide) rfl]
  simp only [dated_fields]
  rfl

theorem mytopStat_eq_some {k : Clock} {s : Stat} (h : mytopStat k file = some s) :
    readStat file = s := by
  unfold mytopStat at h
  dsimp only at h
  split at h
  case isTrue => exact Option.some.inj h
  case isFalse => contradiction

theorem mypsStat_eq_some {k : Clock} {vmLck : ℕ} {s : MypsStat}
    (h : mypsStat k vmLck file = some s) :
    (readStat file).pid = s.pid ∧ (readStat file).cmd = s.cmd := by
  unfold mypsStat at h
  dsimp only at h
  split at h
  case isTrue =>
    obtain rfl := Option.some.inj h
    exact ⟨rfl, rfl⟩
  case isFalse => contradiction

theorem isspace_of_cmd {token comm : List Char} (h : scanCmd token = comm) :
    ∀ c ∈ comm, isspace c = false := by
  rintro c hc
  rw [← h] at hc
  exact scanCmd_not_isspace token c hc

end Record

/-- The stat file is read as the record that the kernel printed if and only if the name of the
process has no blank in it and its times are not negative, in `mytop` also if its pid is an index of
the table. -/
theorem stat_decoded_iff (k : Clock) (r : StatRecord) :
    (mytopStat k r.render = some r.fields ↔ (∀ c ∈ r.comm, isspace c = false) ∧
      (0 ≤ r.pid.1 ∧ r.pid.1 < pidMax) ∧ 0 ≤ r.utime.1 + r.stime.1 ∧ 0 ≤ r.starttime.1) ∧
    ∀ vmLck, mypsStat k vmLck r.render = some (r.mypsFields vmLck) ↔
      (∀ c ∈ r.comm, isspace c = false) ∧ 0 ≤ r.utime.1 + r.stime.1 ∧ 0 ≤ r.starttime.1 := by
  have hname (h : (readStat r.render).cmd = r.comm) : ∀ c ∈ r.comm, isspace c = false :=
    isspace_of_cmd h
  constructor
  · constructor
    · intro h
      have hcomm := hname (congrArg Stat.cmd (mytopStat_eq_some h))
      rw [mytopStat_render hcomm, Option.ite_none_right_eq_some] at h
      exact ⟨hcomm, h.1⟩
    · rintro ⟨hcomm, h⟩
      rw [mytopStat_render hcomm, if_pos h]
  · intro vmLck
    constructor
    · intro h
      have hcomm := hname (mypsStat_eq_some h).2
      rw [mypsStat_render hcomm, Option.ite_none_right_eq_some] at h
      exact ⟨hcomm, h.1⟩
    · rintro ⟨hcomm, h⟩
      rw [mypsStat_render hcomm, if_pos h]

def plain : StatRecord where
  pid := ⟨7, by decide⟩
  comm := ['a']
  state := 'S'
  ppid := ⟨1, by decide⟩
  pgrp := ⟨7, by decide⟩
  session := ⟨7, by decide⟩
  ttyNr := ⟨0, by decide⟩
  tpgid := ⟨-1, by decide⟩
  flags := ⟨0, by decide⟩
  minflt := ⟨0, by decide⟩
  cminflt := ⟨0, by decide⟩
  majflt := ⟨0, by decide⟩
  cmajflt := ⟨0, by decide⟩
  utime := ⟨3, by decide⟩
  stime := ⟨4, by decide⟩
  cutime := ⟨0, by decide⟩
  cstime := ⟨0, by decide⟩
  priority := ⟨20, by decide⟩
  nice := ⟨0, by decide⟩
  numThreads := ⟨1, by decide⟩
  itrealvalue := ⟨0, by decide⟩
  starttime := ⟨99, by decide⟩
  more := []
  comm_pos := by decide
  comm_le := by decide
  comm_nul := by decide
  state_printed := by decide

def spaced : StatRecord :=
  { plain with
    comm := ['a', ' ', 'b'], comm_pos := by decide, comm_le := by decide, comm_nul := by decide }

def early : StatRecord := { plain with starttime := ⟨-1, by decide⟩ }

def Clock.zero : Clock where
  boot := 0
  offset := fun _ => 0
  boot_bounds := by decide
  offset_bounds := fun _ => by decide

/-- The name is cut at its blank, and the state is the rest of the name. A negative start time has no
date. -/
theorem stat_shifted : (readStat spaced.render).cmd = [] ∧
    (readStat spaced.render).stat = ['b', ')'] ∧
    mytopStat .zero early.render = none ∧
    ¬ ∀ (k : Clock) (r : StatRecord), mytopStat k r.render = some r.fields ∧
      ∀ vmLck, mypsStat k vmLck r.render = some (r.mypsFields vmLck) := by
  have hcmd : (readStat spaced.render).cmd = [] := by decide
  refine ⟨hcmd, by decide, by decide, ?_⟩
  intro h
  have hread := mytopStat_eq_some (h .zero spaced).1
  rw [hread] at hcmd
  exact absurd hcmd (by decide)

end OperatingSystem.Procfs
