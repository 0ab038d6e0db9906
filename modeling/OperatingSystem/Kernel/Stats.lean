import OperatingSystem.Kernel.Task

/-! # Accounting at context switches

The `sched_info` functions of `stats.h`. All clocks and counters are unsigned and
wrap around.
-/

namespace OperatingSystem.Kernel

structure Rq (T : Type*) where
  clock : BitVec 64
  curr : T
  idle : T
  rqSchedInfo : SchedInfo
  rqCpuTime : BitVec 64
  deriving DecidableEq, Repr

variable {T : Type*}

def rqSchedInfoArrive (rq : Rq T) (delta : BitVec 64) : Rq T :=
  { rq with
    rqSchedInfo.runDelay := rq.rqSchedInfo.runDelay + delta
    rqSchedInfo.pcount := rq.rqSchedInfo.pcount + 1 }

def rqSchedInfoDepart (rq : Rq T) (delta : BitVec 64) : Rq T :=
  { rq with rqCpuTime := rq.rqCpuTime + delta }

def rqSchedInfoDequeued (rq : Rq T) (delta : BitVec 64) : Rq T :=
  { rq with rqSchedInfo.runDelay := rq.rqSchedInfo.runDelay + delta }

def schedInfoResetDequeued (t : Task) : Task := { t with schedInfo.lastQueued := 0 }

/-- The time since the task was queued, if it was. -/
def queuedFor (rq : Rq T) (t : Task) : BitVec 64 :=
  if t.schedInfo.lastQueued ≠ 0 then rq.clock - t.schedInfo.lastQueued else 0

def schedInfoDequeued (schedInfoOn : Bool) (rq : Rq T) (t : Task) : Rq T × Task :=
  let delta := if schedInfoOn then queuedFor rq t else 0
  let t := schedInfoResetDequeued t
  (rqSchedInfoDequeued rq delta,
    { t with schedInfo.runDelay := t.schedInfo.runDelay + delta })

def schedInfoArrive (rq : Rq T) (t : Task) : Rq T × Task :=
  let now := rq.clock
  let delta := queuedFor rq t
  let t := schedInfoResetDequeued t
  (rqSchedInfoArrive rq delta,
    { t with
      schedInfo.runDelay := t.schedInfo.runDelay + delta
      schedInfo.lastArrival := now
      schedInfo.pcount := t.schedInfo.pcount + 1 })

def schedInfoQueued (schedInfoOn : Bool) (rq : Rq T) (t : Task) : Task :=
  if schedInfoOn ∧ t.schedInfo.lastQueued = 0 then { t with schedInfo.lastQueued := rq.clock } else t

def schedInfoDepart (schedInfoOn : Bool) (rq : Rq T) (t : Task) : Rq T × Task :=
  let delta := rq.clock - t.schedInfo.lastArrival
  let t := { t with accumulatedCputime := t.accumulatedCputime + delta }
  let rq := rqSchedInfoDepart rq delta
  (rq, if t.state = taskRunning then schedInfoQueued schedInfoOn rq t else t)

section Fields

variable (on : Bool) (rq : Rq T) (t : Task)

theorem schedInfoQueued_eq : ∃ q,
    schedInfoQueued on rq t = { t with schedInfo.lastQueued := q } := by
  unfold schedInfoQueued
  split
  · exact ⟨_, rfl⟩
  · exact ⟨t.schedInfo.lastQueued, rfl⟩

theorem schedInfoDepart_eq : ∃ q,
    (schedInfoDepart on rq t).2 =
      { t with
        accumulatedCputime := t.accumulatedCputime + (rq.clock - t.schedInfo.lastArrival)
        schedInfo.lastQueued := q } := by
  unfold schedInfoDepart
  dsimp only
  split
  · exact schedInfoQueued_eq on _ _
  · exact ⟨t.schedInfo.lastQueued, rfl⟩

end Fields

end OperatingSystem.Kernel
