import Mathlib.Data.Nat.Digits.Lemmas
import Mathlib.Data.Rat.Floor

/-! # The processes of the `/proc` tools

The record that `mytop.c` and `myps.c` fill in for a process, the sizes of their arrays,
and the texts of the numbers in their columns.
-/

namespace OperatingSystem.Procfs

abbrev processMax : ℕ := 4096

abbrev tokenLen : ℕ := 32

abbrev cmdLen : ℕ := 1024

abbrev bufferSize : ℕ := 1024

/-- `hertz`, the clock ticks of a second. -/
abbrev hertz : ℕ := 100

/-- `myProc`. Only `mytop.c` has the field `runtime`. -/
structure MyProc where
  pid : ℕ
  ppid : ℕ
  runtime : ℕ
  user : List Char
  cpu : ℚ
  mem : ℚ
  vsz : ℕ
  rss : ℕ
  shr : ℕ
  priority : ℤ
  nice : ℤ
  tty : List Char
  stat : List Char
  start : List Char
  time : List Char
  cmd : List Char
  command : List Char
  deriving DecidableEq

def eraseProcess : MyProc where
  pid := 0
  ppid := 0
  runtime := 0
  user := []
  cpu := 0
  mem := 0
  vsz := 0
  rss := 0
  shr := 0
  priority := 0
  nice := 0
  tty := []
  stat := []
  start := []
  time := []
  cmd := []
  command := []

/-- `%lu` -/
def unsignedText (n : ℕ) : List Char := Nat.toDigits 10 n

/-- `%d` -/
def signedText (n : ℤ) : List Char :=
  if n < 0 then '-' :: unsignedText n.natAbs else unsignedText n.natAbs

/-- The tenths nearest to a number, and the even ones of two that are equally near. -/
def tenths (q : ℚ) : ℕ :=
  let n := (10 * |q|).floor.natAbs
  if 10 * |q| - n < 1 / 2 then n
  else if 1 / 2 < 10 * |q| - n then n + 1
  else if n % 2 = 0 then n else n + 1

/-- `%3.1Lf` -/
def decimalText (q : ℚ) : List Char :=
  let text := unsignedText (tenths q / 10) ++ '.' :: unsignedText (tenths q % 10)
  if q < 0 then '-' :: text else text

/-- `(int)` of a number -/
def truncate (q : ℚ) : ℤ := q.num.tdiv q.den

/-- The loop that widens a column to the longest of its texts. -/
def widen (width : ℕ) (texts : List (List Char)) : ℕ :=
  texts.foldl (fun width text => if width < text.length then text.length else width) width

theorem widen_spec (width : ℕ) (texts : List (List Char)) :
    width ≤ widen width texts ∧ ∀ text ∈ texts, text.length ≤ widen width texts := by
  induction texts generalizing width with
  | nil => exact ⟨Nat.le_refl width, by simp⟩
  | cons text texts ih =>
    obtain ⟨hle, hall⟩ := ih (if width < text.length then text.length else width)
    have hfirst : width ≤ (if width < text.length then text.length else width) ∧
        text.length ≤ (if width < text.length then text.length else width) := by
      split <;> omega
    constructor
    · exact hfirst.1.trans hle
    · intro t ht
      rcases List.mem_cons.mp ht with rfl | ht
      · exact hfirst.2.trans hle
      · exact hall t ht

end OperatingSystem.Procfs
