import Mathlib.Data.Int.Notation
import Mathlib.Data.Nat.Notation
import Mathlib.Tactic.SplitIfs

/-! # The scheduler's view of a task

The fields of `task_struct` that the two patched `core.c` files and `stats.h` read
and write, the priority scale, and the part of `sched_fork` that the CFS and the
FIFO kernel share.
-/

namespace OperatingSystem.Kernel

/-- The constants of the kernel headers. -/
def maxDlPrio : ℤ := 0
def maxRtPrio : ℤ := 100
def defaultPrio : ℤ := 120

def niceToPrio (nice : ℤ) : ℤ := nice + defaultPrio
def prioToNice (prio : ℤ) : ℤ := prio - defaultPrio

/-- Values of `state`. -/
def taskRunning : ℕ := 0x0000
def taskDead : ℕ := 0x0080
def taskNew : ℕ := 0x0800

inductive Policy where
  | normal
  | fifo
  | rr
  | batch
  | idle
  | deadline
  deriving DecidableEq, Repr

def dlPolicy (policy : Policy) : Bool := policy = .deadline
def rtPolicy (policy : Policy) : Bool := policy = .fifo || policy = .rr
def fairPolicy (policy : Policy) : Bool := policy = .normal || policy = .batch

def dlPrio (prio : ℤ) : Bool := prio < maxDlPrio
def rtPrio (prio : ℤ) : Bool := prio < maxRtPrio

inductive SchedClass where
  | dl
  | rt
  | fair
  deriving DecidableEq, Repr

structure SchedInfo where
  pcount : BitVec 64
  runDelay : BitVec 64
  lastArrival : BitVec 64
  lastQueued : BitVec 64
  deriving DecidableEq, Repr

structure Task where
  pid : ℕ
  state : ℕ
  prio : ℤ
  staticPrio : ℤ
  normalPrio : ℤ
  rtPriority : BitVec 32
  policy : Policy
  schedClass : SchedClass
  schedResetOnFork : Bool
  schedInfo : SchedInfo
  accumulatedCputime : BitVec 64
  deriving DecidableEq, Repr

/-- `__normal_prio` -/
def baseNormalPrio (p : Task) : ℤ := p.staticPrio

/-- `normal_prio`, where the subtraction is one of unsigned numbers. -/
def normalPrio (p : Task) : ℤ :=
  if dlPolicy p.policy then maxDlPrio - 1
  else if rtPolicy p.policy then (BitVec.ofInt 32 (maxRtPrio - 1) - p.rtPriority).toInt
  else baseNormalPrio p

inductive Errno where
  | eagain
  deriving DecidableEq, Repr

/-- Revert to default priority and policy on fork if requested. -/
def revertOnFork (p : Task) : Task :=
  if p.schedResetOnFork then
    let p :=
      if dlPolicy p.policy || rtPolicy p.policy then
        { p with policy := .normal, staticPrio := niceToPrio 0, rtPriority := 0 }
      else if prioToNice p.staticPrio < 0 then { p with staticPrio := niceToPrio 0 }
      else p
    { p with prio := baseNormalPrio p, normalPrio := baseNormalPrio p, schedResetOnFork := false }
  else p

/-- The choice of `sched_class` in `sched_fork`. -/
def classOnFork (p : Task) : Except Errno Task :=
  if dlPrio p.prio then .error .eagain
  else if rtPrio p.prio then .ok { p with schedClass := .rt }
  else .ok { p with schedClass := .fair }

def clearSchedInfo (schedInfoOn : Bool) (p : Task) : Task :=
  if schedInfoOn then { p with schedInfo := ⟨0, 0, 0, 0⟩ } else p

/-- `sched_fork` after the child's first priority is set. -/
def finishFork (schedInfoOn : Bool) (p : Task) : Except Errno Task :=
  (classOnFork (revertOnFork p)).map (clearSchedInfo schedInfoOn)

section Fork

variable {on : Bool} {p q : Task}

theorem finishFork_ok (h : finishFork on p = .ok q) :
    dlPrio (revertOnFork p).prio = false ∧
      q = clearSchedInfo on { revertOnFork p with
        schedClass := if rtPrio (revertOnFork p).prio then .rt else .fair } := by
  unfold finishFork classOnFork at h
  cases hd : dlPrio (revertOnFork p).prio <;> cases hr : rtPrio (revertOnFork p).prio <;>
    simp_all [Except.map]

@[simp] theorem revertOnFork_cputime :
    (revertOnFork p).accumulatedCputime = p.accumulatedCputime := by
  unfold revertOnFork
  dsimp only
  split_ifs <;> rfl

@[simp] theorem clearSchedInfo_cputime :
    (clearSchedInfo on p).accumulatedCputime = p.accumulatedCputime := by
  unfold clearSchedInfo
  split_ifs <;> rfl

end Fork

end OperatingSystem.Kernel
