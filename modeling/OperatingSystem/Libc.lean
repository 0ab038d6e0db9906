import Mathlib.Algebra.Ring.Int.Defs
import Mathlib.Algebra.Ring.Nat

/-! # C library

The conversions of the C library that the `/proc` tools use: `atoi` as glibc computes
it, the widening of its result to an `unsigned long`, and `%lu` of `sscanf`.
-/

namespace OperatingSystem.Libc

def isspace (c : Char) : Bool := c = ' ' || ('\t' ≤ c && c ≤ '\r')

/-- The number that a run of digits at the head of a text denotes, after the digits read so far. -/
def digits (n : ℕ) : List Char → ℕ
  | [] => n
  | c :: text => if c.isDigit then digits (10 * n + (c.toNat - 48)) text else n

/-- The integer that a text denotes: blanks, a sign and digits, and 0 where there are none. -/
def numeral (text : List Char) : ℤ :=
  match text.dropWhile isspace with
  | '-' :: rest => -(digits 0 rest : ℤ)
  | '+' :: rest => digits 0 rest
  | rest => digits 0 rest

/-- The `int` that `atoi` makes of a numeral: it goes through a `long`, which holds at its
bounds. -/
def toInt (n : ℤ) : BitVec 32 := BitVec.ofInt 32 (max (-2 ^ 63) (min n (2 ^ 63 - 1)))

def atoi (text : List Char) : BitVec 32 := toInt (numeral text)

def ulong (x : BitVec 32) : BitVec 64 := x.signExtend 64

/-- The `unsigned long` that `%lu` makes of a numeral: a negative one wraps, and one that is too
large becomes the bound. -/
def toUlong (n : ℤ) : ℕ := if n.natAbs < 2 ^ 64 then (n % 2 ^ 64).toNat else 2 ^ 64 - 1

def hasNumeral (text : List Char) : Bool :=
  match text.dropWhile isspace with
  | '-' :: rest => rest.head?.any Char.isDigit
  | '+' :: rest => rest.head?.any Char.isDigit
  | rest => rest.head?.any Char.isDigit

/-- `sscanf` with `%lu` into a variable, which keeps its value where there is no number. -/
def sscanf (text : List Char) (value : ℕ) : ℕ :=
  if hasNumeral text then toUlong (numeral text) else value

theorem toNat_ulong {n : ℕ} (h : n < 2 ^ 31) : (ulong (toInt n)).toNat = n := by
  have hclamp : max (-2 ^ 63) (min (n : ℤ) (2 ^ 63 - 1)) = n := by omega
  have hmsb : (BitVec.ofInt 32 n).msb = false := by
    rw [BitVec.ofInt_natCast, BitVec.msb_eq_false_iff_two_mul_lt, BitVec.toNat_ofNat]
    omega
  rw [ulong, toInt, hclamp, BitVec.toNat_signExtend, hmsb, BitVec.ofInt_natCast]
  simp
  omega

end OperatingSystem.Libc
