import OperatingSystem.Myps.Selection
import OperatingSystem.Procfs.Stat

/-! # Printed durations

The times that `mytop.c` and `myps.c` print from the fields of `gmtime`, and what these
texts denote when they are read back. Every format leaves out the calendar fields
above its own, so it is exact up to the first value of such a field.
-/

namespace OperatingSystem.Procfs

/-- The fields of `struct tm` that are printed. -/
structure Tm where
  sec : ℕ
  min : ℕ
  hour : ℕ
  yday : ℕ
  deriving DecidableEq

def leap (year : ℕ) : Bool := year % 4 = 0 && (year % 100 ≠ 0 || year % 400 = 0)

def yearDays (year : ℕ) : ℕ := if leap year then 366 else 365

/-- The day of its year, over at most the given number of years from the start of `year` on. -/
def dayOfYear (year days : ℕ) : ℕ → ℕ
  | 0 => days
  | fuel + 1 =>
    if days < yearDays year then days else dayOfYear (year + 1) (days - yearDays year) fuel

/-- `gmtime` of the seconds since the start of 1970 -/
def gmtime (time : ℕ) : Tm where
  sec := time % 60
  min := time / 60 % 60
  hour := time / 3600 % 24
  yday := dayOfYear 1970 (time / 86400) (time / 86400)

def field (fill : Char) (width n : ℕ) : List Char := (unsignedText n).leftpad width fill

/-- `proc.time` of `mytop.c` -/
def timePlus (totalTime : ℕ) : List Char :=
  let tm := gmtime (totalTime / hertz)
  field ' ' 1 tm.min ++ ':' :: (field '0' 2 tm.sec ++ '.' :: field '0' 2 (totalTime % 100))

/-- The options for which `myps.c` prints hours. -/
def withHours (o : Myps.Options) : Bool :=
  o.eOption || (!o.aOption && !o.uOption && !o.xOption)

/-- `proc.time` of `myps.c` -/
def time (o : Myps.Options) (cpuTime : ℕ) : List Char :=
  let tm := gmtime cpuTime
  if withHours o then field '0' 2 tm.hour ++ ':' :: (field '0' 2 tm.min ++ ':' :: field '0' 2 tm.sec)
  else field ' ' 1 tm.min ++ ':' :: field '0' 2 tm.sec

def upStr (uptime : ℕ) : List Char :=
  let tm := gmtime uptime
  if uptime < 60 * 60 then field ' ' 2 tm.min ++ [' ', 'm', 'i', 'n']
  else if uptime < 60 * 60 * 24 then field ' ' 2 tm.hour ++ ':' :: field '0' 2 tm.min
  else field ' ' 3 tm.yday ++ [' ', 'd', 'a', 'y', 's', ',', ' '] ++
    (field '0' 2 tm.hour ++ ':' :: field '0' 2 tm.min)

/-- The numbers in a text, after the digits of one that has begun. -/
def numbers : Option ℕ → List Char → List ℕ
  | begun, [] => begun.toList
  | begun, c :: text =>
    if c.isDigit then numbers (some (10 * begun.getD 0 + (c.toNat - 48))) text
    else begun.toList ++ numbers none text

/-- The hundredths of a second that a text `m:ss.cc` denotes. -/
def hundredthsOf (text : List Char) : Option ℕ :=
  match numbers none text with
  | [m, s, c] => some ((60 * m + s) * 100 + c)
  | _ => none

/-- The seconds that a text `hh:mm:ss` or `m:ss` denotes. -/
def secondsOf (text : List Char) : Option ℕ :=
  match numbers none text with
  | [h, m, s] => some (3600 * h + 60 * m + s)
  | [m, s] => some (60 * m + s)
  | _ => none

/-- The minutes that a text of minutes, of hours and minutes or of days, hours and minutes
denotes. -/
def minutesOf (text : List Char) : Option ℕ :=
  match numbers none text with
  | [d, h, m] => some (1440 * d + 60 * h + m)
  | [h, m] => some (60 * h + m)
  | [m] => some m
  | _ => none

variable {text rest : List Char} {c : Char} {n : ℕ}

section Reading

theorem numbers_digits (h : ∀ c ∈ text, c.isDigit = true) (n : ℕ) :
    numbers (some n) (text ++ rest) = numbers (some (Nat.ofDigitChars 10 text n)) rest := by
  induction text generalizing n with
  | nil => simp
  | cons c text ih =>
    obtain ⟨hc, htext⟩ := List.forall_mem_cons.mp h
    rw [List.cons_append, numbers, if_pos hc, ih htext, Nat.ofDigitChars_cons]
    rfl

theorem numbers_none (h : ∀ c ∈ text, c.isDigit = true) (hne : text ≠ []) :
    numbers none (text ++ rest) = numbers (some (Nat.ofDigitChars 10 text 0)) rest := by
  rcases text with - | ⟨c, text⟩
  · exact absurd rfl hne
  · have hc := h c List.mem_cons_self
    rw [← numbers_digits h, List.cons_append, numbers, numbers, if_pos hc, if_pos hc]
    rfl

theorem numbers_blanks (k : ℕ) : numbers none (List.replicate k ' ' ++ rest) = numbers none rest := by
  induction k with
  | zero => rfl
  | succ k ih => exact ih

theorem numbers_zero_field (width n : ℕ) (rest : List Char) :
    numbers none (field '0' width n ++ rest) = numbers (some n) rest := by
  have hall : ∀ c ∈ field '0' width n, c.isDigit = true := by
    intro c hc
    rcases List.mem_append.mp hc with hc | hc
    · rw [List.eq_of_mem_replicate hc]
      rfl
    · exact isDigit_unsignedText hc
  have hne : field '0' width n ≠ [] := by
    intro h
    exact unsignedText_ne_nil n (List.append_eq_nil_iff.mp h).2
  rw [numbers_none hall hne, field, List.leftpad, Nat.ofDigitChars_append,
    Nat.ofDigitChars_replicate_zero, Nat.mul_zero]
  congr 2
  exact Nat.ofDigitChars_ten_toDigits

theorem numbers_blank_field (width n : ℕ) :
    numbers none (field ' ' width n ++ rest) = numbers (some n) rest := by
  rw [field, List.leftpad, List.append_assoc, numbers_blanks,
    numbers_none (fun c hc => isDigit_unsignedText hc) (unsignedText_ne_nil n)]
  congr 2
  exact Nat.ofDigitChars_ten_toDigits

theorem numbers_separator (hc : c.isDigit = false) (n : ℕ) (rest : List Char) :
    numbers (some n) (c :: rest) = n :: numbers none rest := by
  rw [numbers, hc]
  rfl

theorem numbers_last (width n : ℕ) : numbers none (field '0' width n) = [n] := by
  have h := numbers_zero_field width n []
  rwa [List.append_nil] at h

end Reading

section Exact

theorem dayOfYear_le (year days fuel : ℕ) : dayOfYear year days fuel ≤ days := by
  induction fuel generalizing year days with
  | zero => exact Nat.le_refl days
  | succ fuel ih =>
    rw [dayOfYear]
    split
    case isTrue => exact Nat.le_refl days
    case isFalse => exact (ih _ _).trans (Nat.sub_le _ _)

/-- The day of the year is the number of days in the first year only. -/
theorem dayOfYear_eq_iff (days : ℕ) : dayOfYear 1970 days days = days ↔ days < 365 := by
  have hyear : yearDays 1970 = 365 := by decide
  cases days with
  | zero => simp [dayOfYear]
  | succ days =>
    rw [dayOfYear, hyear]
    split
    case isTrue hlt => exact iff_of_true rfl hlt
    case isFalse hge =>
      have hle := dayOfYear_le (1970 + 1) (days + 1 - 365) days
      omega

theorem hundredthsOf_timePlus (totalTime : ℕ) : hundredthsOf (timePlus totalTime) =
    some ((60 * (totalTime / 100 / 60 % 60) + totalTime / 100 % 60) * 100 + totalTime % 100) := by
  rw [hundredthsOf, timePlus, numbers_blank_field, numbers_separator rfl, numbers_zero_field,
    numbers_separator rfl, numbers_last]
  rfl

theorem secondsOf_time (o : Myps.Options) (cpuTime : ℕ) : secondsOf (time o cpuTime) =
    some (cpuTime % if withHours o then 86400 else 3600) := by
  unfold time
  split
  case isTrue =>
    rw [secondsOf, numbers_zero_field, numbers_separator rfl, numbers_zero_field,
      numbers_separator rfl, numbers_last]
    simp only [gmtime, Option.some.injEq]
    omega
  case isFalse =>
    rw [secondsOf, numbers_blank_field, numbers_separator rfl, numbers_last]
    simp only [gmtime, Option.some.injEq]
    omega

theorem minutesOf_upStr (uptime : ℕ) : minutesOf (upStr uptime) =
    some (if uptime < 86400 then uptime / 60
      else 1440 * dayOfYear 1970 (uptime / 86400) (uptime / 86400) + uptime / 60 % 1440) := by
  have hlimit : 60 * 60 * 24 = 86400 := rfl
  unfold upStr
  rw [hlimit]
  split_ifs with hhour hday hday
  · rw [minutesOf, numbers_blank_field, numbers_separator rfl]
    simp only [gmtime, Nat.mod_eq_of_lt (Nat.div_lt_of_lt_mul hhour)]
    rfl
  · omega
  · rw [minutesOf, numbers_blank_field, numbers_separator rfl, numbers_last]
    simp only [gmtime, Option.some.injEq]
    omega
  · have hdays (rest : List Char) :
        numbers none (['d', 'a', 'y', 's', ',', ' '] ++ rest) = numbers none rest := rfl
    rw [minutesOf, List.append_assoc, numbers_blank_field, List.cons_append, numbers_separator rfl,
      hdays, numbers_zero_field, numbers_separator rfl, numbers_last]
    simp only [gmtime, Option.some.injEq]
    omega

end Exact

/-- The printed durations lose no time up to an hour or a day of processor time, and up to the first
year of the uptime. -/
theorem durations_exact_iff (o : Myps.Options) (totalTime uptime : ℕ) :
    (hundredthsOf (timePlus totalTime) = some totalTime ↔ totalTime / hertz < 3600) ∧
    (secondsOf (time o (totalTime / hertz)) = some (totalTime / hertz) ↔
      totalTime / hertz < if withHours o then 86400 else 3600) ∧
    (minutesOf (upStr uptime) = some (uptime / 60) ↔ uptime / 86400 < 365) := by
  rw [hundredthsOf_timePlus, secondsOf_time, minutesOf_upStr]
  simp only [Option.some.injEq]
  refine ⟨?_, ?_, ?_⟩
  · simp only [hertz]
    omega
  · generalize totalTime / hertz = cpuTime
    split <;> omega
  · rw [← dayOfYear_eq_iff]
    split
    case isTrue h =>
      have hday : uptime / 86400 = 0 := Nat.div_eq_of_lt h
      simp [hday, dayOfYear]
    case isFalse => omega

/-- An hour of processor time is printed as none, and a year of uptime likewise. -/
theorem durations_wrap : timePlus 360000 = ['0', ':', '0', '0', '.', '0', '0'] ∧
    upStr (365 * 86400) = [' ', ' ', '0', ' ', 'd', 'a', 'y', 's', ',', ' ', '0', '0', ':', '0', '0'] ∧
    ¬ ∀ totalTime, hundredthsOf (timePlus totalTime) = some totalTime := by
  refine ⟨by decide, by decide, ?_⟩
  intro h
  exact absurd (h 360000) (by decide)

end OperatingSystem.Procfs
