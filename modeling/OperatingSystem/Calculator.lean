import Mathlib.Algebra.Ring.Int.Defs
import Mathlib.Algebra.Ring.Nat

/-! # The calculator system calls

The four handlers of `sys_basic_*.c` and the loop body of their client
`syscall_operation.c`. The memory of the client and `put_user` are parameters. A
handler neither checks its operands nor reports a failed `put_user`, and the client
prints whatever its pointer reads.
-/

namespace OperatingSystem.Calculator

/-- The memory of the client: what `*p` reads there, unless it faults, and the `put_user` of the
kernel, which stores the value or returns a negative error code. -/
structure UserAccess (M : Type) where
  load : M → BitVec 64 → Option (BitVec 32)
  writable : M → BitVec 64 → Bool
  putUser : M → BitVec 64 → BitVec 32 → ℤ × M
  putUser_neg : ∀ m p v, (putUser m p v).1 < 0 ↔ writable m p = false
  load_putUser : ∀ m p v, writable m p = true → load (putUser m p v).2 p = some v

/-- What a handler leaves: the memory, its line in the kernel log and its return value. -/
structure Reply (M : Type) where
  mem : M
  printk : String
  ret : ℤ

variable {M : Type} (acc : UserAccess M)

/-- The common part of the handlers after `int val`. -/
def store (operation : String) (m : M) (val : BitVec 32) (result : BitVec 64) : Reply M :=
  let (error, m') := acc.putUser m result val
  { mem := m'
    printk :=
      if error < 0 then "The " ++ operation ++ " operation failed!\n"
      else "The " ++ operation ++ " operation success!\n"
    ret := 0 }

/-- A `%` of the kernel's C, which traps on a zero divisor and on an overflowing quotient. -/
def mod (num1 num2 : BitVec 32) : Option (BitVec 32) :=
  if num2 = 0 ∨ num1 = BitVec.intMin 32 ∧ num2 = -1 then none else some (num1.srem num2)

/-- The handlers. They have no result when the computation of `val` traps. -/
def sysBasicAdd (m : M) (num1 num2 : BitVec 32) (result : BitVec 64) : Option (Reply M) :=
  some (store acc "addition" m (num1 + num2) result)

def sysBasicSub (m : M) (num1 num2 : BitVec 32) (result : BitVec 64) : Option (Reply M) :=
  some (store acc "subtraction" m (num1 - num2) result)

def sysBasicMul (m : M) (num1 num2 : BitVec 32) (result : BitVec 64) : Option (Reply M) :=
  some (store acc "multiplication" m (num1 * num2) result)

def sysBasicMod (m : M) (num1 num2 : BitVec 32) (result : BitVec 64) : Option (Reply M) :=
  (mod num1 num2).map fun val => store acc "moduler" m val result

/-- The system call table, where another number is `ENOSYS` and stores nothing. -/
def syscall (number : ℕ) (m : M) (num1 num2 : BitVec 32) (result : BitVec 64) : Option (Reply M) :=
  match number with
  | 443 => sysBasicAdd acc m num1 num2 result
  | 444 => sysBasicSub acc m num1 num2 result
  | 445 => sysBasicMul acc m num1 num2 result
  | 446 => sysBasicMod acc m num1 num2 result
  | _ => some ⟨m, "", -38⟩

def switchOp : Char → Option ℕ
  | '+' => some 443
  | '-' => some 444
  | '*' => some 445
  | '%' => some 446
  | _ => none

/-- A line that the client prints. -/
inductive Line where
  | error (text : String)
  | answer (num1 : BitVec 32) (op : Char) (num2 : BitVec 32) (value : BitVec 32)
  deriving DecidableEq

/-- One iteration of the client on what `scanf` reads. It has no result when the kernel or the
client itself faults. -/
def client (m : M) (result : BitVec 64) (input : Option (BitVec 32 × Char × BitVec 32)) :
    Option (Line × M) :=
  match input with
  | none => some (.error "[Error] 입력 오류! 다시 입력해주세요.\n\n", m)
  | some (num1, op, num2) =>
    match switchOp op with
    | none => some (.error "[Error] +, -, *, % 연산만 가능합니다.\n\n", m)
    | some number => do
      let reply ← syscall acc number m num1 num2 result
      let value ← acc.load reply.mem result
      return (.answer num1 op num2 value, reply.mem)

inductive Operator where
  | add
  | sub
  | mul
  | mod
  deriving DecidableEq, Repr

namespace Operator

def symbol : Operator → Char
  | add => '+'
  | sub => '-'
  | mul => '*'
  | mod => '%'

def number : Operator → ℕ
  | add => 443
  | sub => 444
  | mul => 445
  | mod => 446

def exact : Operator → ℤ → ℤ → ℤ
  | add, a, b => a + b
  | sub, a, b => a - b
  | mul, a, b => a * b
  | mod, a, b => a.tmod b

def word : Operator → String
  | add => "addition"
  | sub => "subtraction"
  | mul => "multiplication"
  | mod => "moduler"

/-- `int val` of a handler, unless it traps. -/
def val : Operator → BitVec 32 → BitVec 32 → Option (BitVec 32)
  | add, num1, num2 => some (num1 + num2)
  | sub, num1, num2 => some (num1 - num2)
  | mul, num1, num2 => some (num1 * num2)
  | mod, num1, num2 => Calculator.mod num1 num2

/-- The operands on which the operator does not trap. -/
def Defined : Operator → BitVec 32 → BitVec 32 → Prop
  | mod, num1, num2 => num2 ≠ 0 ∧ ¬ (num1 = BitVec.intMin 32 ∧ num2 = -1)
  | _, _, _ => True

end Operator

variable {acc} {m : M} {op : Operator} {num1 num2 v : BitVec 32} {result : BitVec 64}

section Handlers

theorem val_isSome_iff : (op.val num1 num2).isSome = true ↔ op.Defined num1 num2 := by
  cases op with
  | mod =>
    simp only [Operator.val, mod, Operator.Defined]
    split
    case isTrue h => simpa using fun h' => h.resolve_left h'
    case isFalse h => simpa using not_or.mp h
  | _ => simp [Operator.val, Operator.Defined]

theorem toInt_val (hv : op.val num1 num2 = some v)
    (hle : -2 ^ 31 ≤ op.exact num1.toInt num2.toInt)
    (hlt : op.exact num1.toInt num2.toInt < 2 ^ 31) :
    v.toInt = op.exact num1.toInt num2.toInt := by
  have hwrap : ∀ n : ℤ, -2 ^ 31 ≤ n → n < 2 ^ 31 → n.bmod (2 ^ 32) = n := by
    intro n h1 h2
    apply Int.bmod_eq_of_le <;> omega
  cases op with
  | add =>
    obtain rfl := Option.some.inj hv
    rw [BitVec.toInt_add]
    exact hwrap _ hle hlt
  | sub =>
    obtain rfl := Option.some.inj hv
    rw [BitVec.toInt_sub]
    exact hwrap _ hle hlt
  | mul =>
    obtain rfl := Option.some.inj hv
    rw [BitVec.toInt_mul]
    exact hwrap _ hle hlt
  | mod =>
    simp only [Operator.val, mod] at hv
    split at hv
    case isTrue => cases hv
    case isFalse =>
      obtain rfl := Option.some.inj hv
      exact BitVec.toInt_srem num1 num2

/-- The system call table reaches the handler of the operator. -/
theorem syscall_number : syscall acc op.number m num1 num2 result =
    (op.val num1 num2).map fun val => store acc op.word m val result := by
  cases op <;> rfl

theorem switchOp_symbol : switchOp op.symbol = some op.number := by cases op <;> rfl

end Handlers

/-- What is expected of a call: the handler reaches `put_user`, stores the exact result where it is
an `int`, reports a failed store, and the client prints only what the kernel has stored. -/
structure Sound (acc : UserAccess M) (m : M) (result : BitVec 64) (op : Operator)
    (num1 num2 : BitVec 32) : Prop where
  reaches : ∃ reply, syscall acc op.number m num1 num2 result = some reply
  stores : ∀ reply, syscall acc op.number m num1 num2 result = some reply →
    acc.writable m result = true → -2 ^ 31 ≤ op.exact num1.toInt num2.toInt →
    op.exact num1.toInt num2.toInt < 2 ^ 31 →
    ∃ v, acc.load reply.mem result = some v ∧ v.toInt = op.exact num1.toInt num2.toInt
  reports : ∀ reply, syscall acc op.number m num1 num2 result = some reply →
    acc.writable m result = false → reply.ret < 0
  honest : ∀ value m', client acc m result (some (num1, op.symbol, num2)) =
      some (.answer num1 op.symbol num2 value, m') →
    acc.writable m result = true ∧ op.val num1 num2 = some value

theorem Sound.defined (h : Sound acc m result op num1 num2) :
    op.Defined num1 num2 ∧ acc.writable m result = true := by
  obtain ⟨reply, hreply⟩ := h.reaches
  have hret := h.reports reply hreply
  rw [syscall_number, Option.map_eq_some_iff] at hreply
  obtain ⟨val, hval, rfl⟩ := hreply
  constructor
  · rw [← val_isSome_iff, hval]
    rfl
  · cases hw : acc.writable m result with
    | false => exact absurd (hret hw) (Int.lt_irrefl 0)
    | true => rfl

/-- A call is sound exactly when the operator does not trap on its operands and the pointer can be
written. -/
theorem sound_iff (acc : UserAccess M) (m : M) (result : BitVec 64) (op : Operator)
    (num1 num2 : BitVec 32) :
    Sound acc m result op num1 num2 ↔ op.Defined num1 num2 ∧ acc.writable m result = true := by
  constructor
  · exact Sound.defined
  · rintro ⟨hdef, hw⟩
    obtain ⟨val, hval⟩ := Option.isSome_iff_exists.mp (val_isSome_iff.mpr hdef)
    have hcall : syscall acc op.number m num1 num2 result =
        some (store acc op.word m val result) := by
      rw [syscall_number, hval, Option.map_some]
    have hload : acc.load (store acc op.word m val result).mem result = some val :=
      acc.load_putUser m result val hw
    refine ⟨⟨_, hcall⟩, ?_, ?_, ?_⟩
    · rintro reply hreply - hle hlt
      obtain rfl := Option.some.inj (hcall.symm.trans hreply)
      exact ⟨val, hload, toInt_val hval hle hlt⟩
    · rintro reply - hw'
      exact absurd (hw.symm.trans hw') (by decide)
    · rintro value m' hclient
      have hanswer : client acc m result (some (num1, op.symbol, num2)) =
          some (.answer num1 op.symbol num2 val, (store acc op.word m val result).mem) := by
        simp [client, switchOp_symbol, hcall, hload]
      rw [hanswer] at hclient
      simp only [Option.some.injEq, Prod.mk.injEq, Line.answer.injEq, true_and] at hclient
      exact ⟨hw, hclient.1 ▸ hval⟩

/-- A memory of cells that are unmapped, read-only or writable. -/
def cells : UserAccess (BitVec 64 → Option (Bool × BitVec 32)) where
  load m p := (m p).map Prod.snd
  writable m p := (m p).elim false Prod.fst
  putUser m p v :=
    if (m p).elim false Prod.fst then (0, fun q => if q = p then some (true, v) else m q)
    else (-14, m)
  putUser_neg m p v := by cases h : (m p).elim false Prod.fst <;> simp
  load_putUser m p v h := by simp [h]

/-- A zero divisor traps, and so does the overflowing remainder; with a pointer into read-only memory
the client prints what was there before. -/
theorem calculator_unsound :
    ¬ Sound cells (fun _ => some (true, 0)) 8 .mod 5 0 ∧
    ¬ Sound cells (fun _ => some (true, 0)) 8 .mod (BitVec.intMin 32) (-1) ∧
    ¬ Sound cells (fun _ => some (false, 7)) 8 .add 1 1 ∧
    (client cells (fun _ => some (false, 7)) 8 (some (1, '+', 1))).map Prod.fst =
      some (.answer 1 '+' 1 7) := by
  refine ⟨fun h => ?_, fun h => ?_, fun h => ?_, rfl⟩
  · exact h.defined.1.1 rfl
  · exact h.defined.1.2 ⟨rfl, rfl⟩
  · exact absurd h.defined.2 (by decide)

end OperatingSystem.Calculator
