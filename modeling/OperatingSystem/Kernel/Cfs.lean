import Mathlib.Logic.Function.Basic
import OperatingSystem.Kernel.Stats
import OperatingSystem.Transition

/-! # The CFS kernel

`sched_fork` and the context switch of the CFS kernel, and the step relation of a
machine whose CPUs fork, run, switch and end tasks. The machine keeps a log of its
switches, newest first, that no code reads.
-/

namespace OperatingSystem.Kernel

namespace Cfs

/-- `sched_fork` of the CFS kernel on a copy `p` of the task `current`. -/
def schedFork (schedInfoOn : Bool) (current p : Task) : Except Errno Task :=
  let p := { p with state := taskNew, accumulatedCputime := 0 }
  finishFork schedInfoOn { p with prio := current.normalPrio }

theorem schedFork_cputime {on : Bool} {current p q : Task} (h : schedFork on current p = .ok q) :
    q.accumulatedCputime = 0 := by
  obtain ⟨-, rfl⟩ := finishFork_ok h
  simp

end Cfs

/-- A switch from `prev` to `next` at the given clock of a CPU. -/
structure Switch (C T : Type*) where
  cpu : C
  clock : ℕ
  prev : T
  next : T

structure Machine (C T : Type*) where
  task : T → Task
  tasks : List T
  rq : C → Rq T
  printed : List (ℕ × BitVec 64)
  forked : List T
  log : List (Switch C T)

variable {C T : Type*}

namespace Machine

/-- `finish_task_switch` prints the CPU burst time of a dead task. -/
def finishTaskSwitch (prev : T) (m : Machine C T) : Machine C T :=
  if (m.task prev).state = taskDead then
    { m with printed := m.printed ++ [((m.task prev).pid, (m.task prev).accumulatedCputime)] }
  else m

section Print

variable {t : T} {m : Machine C T}

@[simp] theorem finishTaskSwitch_task : (m.finishTaskSwitch t).task = m.task := by
  unfold finishTaskSwitch
  split <;> rfl

@[simp] theorem finishTaskSwitch_rq : (m.finishTaskSwitch t).rq = m.rq := by
  unfold finishTaskSwitch
  split <;> rfl

@[simp] theorem finishTaskSwitch_log : (m.finishTaskSwitch t).log = m.log := by
  unfold finishTaskSwitch
  split <;> rfl

@[simp] theorem finishTaskSwitch_tasks : (m.finishTaskSwitch t).tasks = m.tasks := by
  unfold finishTaskSwitch
  split <;> rfl

@[simp] theorem finishTaskSwitch_forked : (m.finishTaskSwitch t).forked = m.forked := by
  unfold finishTaskSwitch
  split <;> rfl

theorem finishTaskSwitch_dead (h : (m.task t).state = taskDead) :
    (m.finishTaskSwitch t).printed =
      m.printed ++ [((m.task t).pid, (m.task t).accumulatedCputime)] := by
  simp [finishTaskSwitch, h]

end Print

def setTask [DecidableEq T] (t : T) (p : Task) (m : Machine C T) : Machine C T :=
  { m with task := Function.update m.task t p }

variable [DecidableEq C]

def setRq (c : C) (rq : Rq T) (m : Machine C T) : Machine C T :=
  { m with rq := Function.update m.rq c rq }

/-- `__schedule` makes the next task current; the switch is recorded. -/
def setCurr (c : C) (next : T) (m : Machine C T) : Machine C T :=
  { m with
    rq := Function.update m.rq c { m.rq c with curr := next }
    log := ⟨c, (m.rq c).clock.toNat, (m.rq c).curr, next⟩ :: m.log }

section Curr

variable {c d : C} {t : T} {m : Machine C T}

@[simp] theorem setCurr_idle : ((m.setCurr c t).rq d).idle = (m.rq d).idle := by
  rcases eq_or_ne d c with rfl | h <;> simp [setCurr, *]

@[simp] theorem setCurr_clock : ((m.setCurr c t).rq d).clock = (m.rq d).clock := by
  rcases eq_or_ne d c with rfl | h <;> simp [setCurr, *]

@[simp] theorem setCurr_task : (m.setCurr c t).task = m.task := rfl

end Curr

variable [DecidableEq T]

def depart (schedInfoOn : Bool) (c : C) (t : T) (m : Machine C T) : Machine C T :=
  let (rq, p) := schedInfoDepart schedInfoOn (m.rq c) (m.task t)
  (m.setRq c rq).setTask t p

def arrive (c : C) (t : T) (m : Machine C T) : Machine C T :=
  let (rq, p) := schedInfoArrive (m.rq c) (m.task t)
  (m.setRq c rq).setTask t p

def schedInfoSwitch (schedInfoOn : Bool) (c : C) (prev next : T) (m : Machine C T) :
    Machine C T :=
  if schedInfoOn then
    let m := if prev ≠ (m.rq c).idle then m.depart schedInfoOn c prev else m
    if next ≠ (m.rq c).idle then m.arrive c next else m
  else m

def prepareTaskSwitch (schedInfoOn : Bool) (c : C) (prev next : T) (m : Machine C T) :
    Machine C T :=
  m.schedInfoSwitch schedInfoOn c prev next

/-- `__schedule` once it has picked the next task. -/
def contextSwitch (schedInfoOn : Bool) (c : C) (next : T) (m : Machine C T) : Machine C T :=
  let prev := (m.rq c).curr
  ((m.setCurr c next).prepareTaskSwitch schedInfoOn c prev next).finishTaskSwitch prev

section Fields

variable {on : Bool} {c d : C} {t u prev next : T} {m : Machine C T}

@[simp] theorem depart_curr : ((m.depart on c t).rq d).curr = (m.rq d).curr := by
  rcases eq_or_ne d c with rfl | h <;> simp [depart, setRq, setTask, schedInfoDepart,
    rqSchedInfoDepart, *]

@[simp] theorem depart_idle : ((m.depart on c t).rq d).idle = (m.rq d).idle := by
  rcases eq_or_ne d c with rfl | h <;> simp [depart, setRq, setTask, schedInfoDepart,
    rqSchedInfoDepart, *]

@[simp] theorem depart_clock : ((m.depart on c t).rq d).clock = (m.rq d).clock := by
  rcases eq_or_ne d c with rfl | h <;> simp [depart, setRq, setTask, schedInfoDepart,
    rqSchedInfoDepart, *]

@[simp] theorem depart_task_self :
    (m.depart on c t).task t = (schedInfoDepart on (m.rq c) (m.task t)).2 := by
  simp [depart, setTask]

@[simp] theorem depart_task_of_ne (h : u ≠ t) : (m.depart on c t).task u = m.task u := by
  simp [depart, setTask, setRq, h]

@[simp] theorem arrive_curr : ((m.arrive c t).rq d).curr = (m.rq d).curr := by
  rcases eq_or_ne d c with rfl | h <;> simp [arrive, setRq, setTask, schedInfoArrive,
    rqSchedInfoArrive, *]

@[simp] theorem arrive_idle : ((m.arrive c t).rq d).idle = (m.rq d).idle := by
  rcases eq_or_ne d c with rfl | h <;> simp [arrive, setRq, setTask, schedInfoArrive,
    rqSchedInfoArrive, *]

@[simp] theorem arrive_clock : ((m.arrive c t).rq d).clock = (m.rq d).clock := by
  rcases eq_or_ne d c with rfl | h <;> simp [arrive, setRq, setTask, schedInfoArrive,
    rqSchedInfoArrive, *]

@[simp] theorem arrive_task_self :
    (m.arrive c t).task t = (schedInfoArrive (m.rq c) (m.task t)).2 := by
  simp [arrive, setTask]

@[simp] theorem arrive_task_of_ne (h : u ≠ t) : (m.arrive c t).task u = m.task u := by
  simp [arrive, setTask, setRq, h]

@[simp] theorem schedInfoSwitch_curr :
    ((m.schedInfoSwitch on c prev next).rq d).curr = (m.rq d).curr := by
  unfold schedInfoSwitch
  dsimp only
  split_ifs <;> simp

@[simp] theorem schedInfoSwitch_idle :
    ((m.schedInfoSwitch on c prev next).rq d).idle = (m.rq d).idle := by
  unfold schedInfoSwitch
  dsimp only
  split_ifs <;> simp

@[simp] theorem schedInfoSwitch_clock :
    ((m.schedInfoSwitch on c prev next).rq d).clock = (m.rq d).clock := by
  unfold schedInfoSwitch
  dsimp only
  split_ifs <;> simp

theorem schedInfoSwitch_rest (m : Machine C T) (on : Bool) (c : C) (prev next : T) :
    (m.schedInfoSwitch on c prev next).log = m.log ∧
    (m.schedInfoSwitch on c prev next).tasks = m.tasks ∧
    (m.schedInfoSwitch on c prev next).forked = m.forked ∧
    (m.schedInfoSwitch on c prev next).printed = m.printed := by
  unfold schedInfoSwitch
  dsimp only
  split_ifs <;> exact ⟨rfl, rfl, rfl, rfl⟩

theorem schedInfoSwitch_other (hp : t ≠ prev) (hn : t ≠ next) :
    (m.schedInfoSwitch on c prev next).task t = m.task t := by
  unfold schedInfoSwitch
  dsimp only
  split_ifs <;> simp [hp, hn]

theorem schedInfoSwitch_prev (hne : prev ≠ next) :
    (m.schedInfoSwitch true c prev next).task prev =
      if prev ≠ (m.rq c).idle then (schedInfoDepart true (m.rq c) (m.task prev)).2
      else m.task prev := by
  unfold schedInfoSwitch
  dsimp only
  split_ifs <;> simp_all

theorem schedInfoSwitch_state (hne : prev ≠ next) :
    ((m.schedInfoSwitch true c prev next).task prev).state = (m.task prev).state ∧
    ((m.schedInfoSwitch true c prev next).task prev).pid = (m.task prev).pid := by
  obtain ⟨q, hq⟩ := schedInfoDepart_eq true (m.rq c) (m.task prev)
  rw [schedInfoSwitch_prev hne, hq]
  split <;> exact ⟨rfl, rfl⟩

theorem schedInfoSwitch_next (hne : prev ≠ next) (hi : next ≠ (m.rq c).idle) :
    ((m.schedInfoSwitch true c prev next).task next).schedInfo.lastArrival = (m.rq c).clock ∧
    ((m.schedInfoSwitch true c prev next).task next).accumulatedCputime =
      (m.task next).accumulatedCputime := by
  unfold schedInfoSwitch
  dsimp only
  split_ifs <;> simp_all [schedInfoArrive, schedInfoResetDequeued, hne.symm]

end Fields

structure Switched (c : C) (next : T) (m m' : Machine C T) : Prop where
  curr : ∀ d, (m'.rq d).curr = if d = c then next else (m.rq d).curr
  idle : ∀ d, (m'.rq d).idle = (m.rq d).idle
  clock : ∀ d, (m'.rq d).clock = (m.rq d).clock
  log : m'.log = ⟨c, (m.rq c).clock.toNat, (m.rq c).curr, next⟩ :: m.log
  tasks : m'.tasks = m.tasks
  forked : m'.forked = m.forked
  depart : (m.rq c).curr ≠ (m.rq c).idle →
    (m'.task (m.rq c).curr).accumulatedCputime = (m.task (m.rq c).curr).accumulatedCputime +
      ((m.rq c).clock - (m.task (m.rq c).curr).schedInfo.lastArrival)
  arrive : next ≠ (m.rq c).idle → (m'.task next).schedInfo.lastArrival = (m.rq c).clock ∧
    (m'.task next).accumulatedCputime = (m.task next).accumulatedCputime
  other : ∀ t, t ≠ (m.rq c).curr → t ≠ next → m'.task t = m.task t
  printed : (m.task (m.rq c).curr).state = taskDead → m'.printed = m.printed ++
    [((m.task (m.rq c).curr).pid, (m'.task (m.rq c).curr).accumulatedCputime)]

theorem contextSwitch_spec {c : C} {next : T} {m : Machine C T} (hne : (m.rq c).curr ≠ next) :
    Switched c next m (m.contextSwitch true c next) := by
  unfold contextSwitch prepareTaskSwitch
  dsimp only
  obtain ⟨hl, ht, hf, hp⟩ := (m.setCurr c next).schedInfoSwitch_rest true c (m.rq c).curr next
  constructor
  · intro d
    rw [finishTaskSwitch_rq, schedInfoSwitch_curr]
    rcases eq_or_ne d c with rfl | hd <;> simp [setCurr, *]
  · simp
  · simp
  · rw [finishTaskSwitch_log, hl]
    rfl
  · rw [finishTaskSwitch_tasks, ht]
    rfl
  · rw [finishTaskSwitch_forked, hf]
    rfl
  · intro hi
    obtain ⟨q, hq⟩ := schedInfoDepart_eq true ((m.setCurr c next).rq c) (m.task (m.rq c).curr)
    rw [finishTaskSwitch_task, schedInfoSwitch_prev hne, if_pos (by simpa using hi), setCurr_task, hq]
    simp
  · intro hi
    simpa using schedInfoSwitch_next (m := m.setCurr c next) hne (by simpa using hi)
  · intro t hprev hnext
    rw [finishTaskSwitch_task, schedInfoSwitch_other hprev hnext, setCurr_task]
  · intro hdead
    obtain ⟨hs, hpid⟩ := schedInfoSwitch_state (c := c) (m := m.setCurr c next) hne
    rw [setCurr_task] at hs hpid
    rw [finishTaskSwitch_dead (hs.trans hdead), hp, finishTaskSwitch_task, hpid]
    rfl

end Machine

open Machine

variable [DecidableEq C] [DecidableEq T]

/-- The steps of the machine. A task runs on one CPU at most and leaves the CPU that it runs on. -/
inductive Step (schedInfoOn : Bool) (m : Machine C T) : Machine C T → Prop where

  | clock (c : C) (now : BitVec 64) : (m.rq c).clock ≤ now →
      Step schedInfoOn m (m.setRq c { m.rq c with clock := now })

  | fork (c : C) (child : T) (pid : ℕ) {p : Task} : child ∉ m.tasks →
      Cfs.schedFork schedInfoOn (m.task (m.rq c).curr) (m.task (m.rq c).curr) = .ok p →
      Step schedInfoOn m { m.setTask child { p with pid := pid } with
        tasks := child :: m.tasks
        forked := child :: m.forked }

  | setState (t : T) (state : ℕ) : state ≠ taskDead →
      Step schedInfoOn m (m.setTask t { m.task t with state := state })

  | die (c : C) :
      Step schedInfoOn m (m.setTask (m.rq c).curr { m.task (m.rq c).curr with state := taskDead })

  | enqueue (c : C) (t : T) :
      Step schedInfoOn m (m.setTask t (schedInfoQueued schedInfoOn (m.rq c) (m.task t)))

  | dequeue (c : C) (t : T) :
      Step schedInfoOn m ((m.setRq c (schedInfoDequeued schedInfoOn (m.rq c) (m.task t)).1).setTask t
        (schedInfoDequeued schedInfoOn (m.rq c) (m.task t)).2)

  | schedule (c : C) (next : T) : next ∈ m.tasks → (∀ c', (m.rq c').curr ≠ next) →
      Step schedInfoOn m (m.contextSwitch schedInfoOn c next)

/-- Before the first fork: every CPU runs a task, and nothing has been recorded. -/
structure Booted (m : Machine C T) : Prop where
  curr : ∀ c, (m.rq c).curr ∈ m.tasks
  printed : m.printed = []
  forked : m.forked = []
  log : m.log = []

def cfs (C T : Type*) [DecidableEq C] [DecidableEq T] (schedInfoOn : Bool) :
    System (Machine C T) where
  init := Booted
  step := Step schedInfoOn

end OperatingSystem.Kernel
