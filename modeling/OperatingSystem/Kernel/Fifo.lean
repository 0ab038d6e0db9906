import Mathlib.Logic.Function.Basic
import OperatingSystem.Kernel.Task
import OperatingSystem.Transition

/-! # The FIFO kernel

`sched_fork` and `__setscheduler` of the kernel that turns `SCHED_NORMAL` tasks into
`SCHED_FIFO` tasks. `normal_prio` of a task caches the value of the function of that
name; the conversion in `sched_fork` writes the priority on the wrong scale and
breaks the cache. A child also inherits the priority to which its parent is boosted.
-/

namespace OperatingSystem.Kernel.Fifo

/-- `sched_fork` of the FIFO kernel on a copy of the current task. -/
def schedFork (schedInfoOn : Bool) (p : Task) : Except Errno Task :=
  let p := { p with state := taskNew }
  let p :=
    if p.policy = .normal then
      { p with
        prio := maxRtPrio / 2
        normalPrio := maxRtPrio / 2
        rtPriority := BitVec.ofInt 32 (maxRtPrio / 2)
        policy := .fifo }
    else p
  finishFork schedInfoOn p

/-- The attributes that `__setscheduler` reads. The policy `none` is `SETPARAM_POLICY`. -/
structure SchedAttr where
  schedPolicy : Option Policy
  keepParams : Bool
  schedNice : ℤ
  schedPriority : BitVec 32
  deriving DecidableEq, Repr

/-- `__setscheduler_params`, where `setparamDl` stands for `__setparam_dl`. -/
def setschedulerParams (setparamDl : Task → SchedAttr → Task) (p : Task) (attr : SchedAttr) : Task :=
  let policy := attr.schedPolicy.getD p.policy
  let p := { p with policy := policy }
  let p :=
    if dlPolicy policy then setparamDl p attr
    else if fairPolicy policy then { p with staticPrio := niceToPrio attr.schedNice }
    else p
  let p := { p with rtPriority := attr.schedPriority }
  { p with normalPrio := normalPrio p }

/-- `rt_effective_prio`, given the first task that waits for a mutex of the task. -/
def rtEffectivePrio (piTask : Option Task) (prio : ℤ) : ℤ :=
  match piTask with
  | some t => if prio ≤ t.prio then prio else t.prio
  | none => prio

def setscheduler (setparamDl : Task → SchedAttr → Task) (piTask : Option Task) (p : Task)
    (attr : SchedAttr) (keepBoost : Bool) : Task :=
  if attr.keepParams then p
  else
    let p := setschedulerParams setparamDl p attr
    let p := { p with prio := normalPrio p }
    let p := if keepBoost then { p with prio := rtEffectivePrio piTask p.prio } else p
    { p with schedClass := if dlPrio p.prio then .dl else if rtPrio p.prio then .rt else .fair }

/-- A fork of this task converts the child to `SCHED_FIFO` and does not revert it. -/
def Converts (p : Task) : Prop := p.policy = .normal ∧ p.schedResetOnFork = false

instance : DecidablePred Converts := fun _ => inferInstanceAs (Decidable (_ ∧ _))

variable {T : Type*} [DecidableEq T]

/-- Forks of the tasks that satisfy `P` and calls of `__setscheduler`, on a table of tasks. -/
inductive Step (schedInfoOn : Bool) (setparamDl : Task → SchedAttr → Task) (P : Task → Prop)
    (s : T → Option Task) : (T → Option Task) → Prop where

  | fork (parent child : T) {q p : Task} : s parent = some q → P q → s child = none →
      schedFork schedInfoOn q = .ok p →
      Step schedInfoOn setparamDl P s (Function.update s child (some p))

  | setscheduler (t : T) (attr : SchedAttr) (keepBoost : Bool) (piTask : Option Task) {p : Task} :
      s t = some p → attr.keepParams = false →
      Step schedInfoOn setparamDl P s
        (Function.update s t (some (setscheduler setparamDl piTask p attr keepBoost)))

/-- The runs from tasks whose cached priority is right. -/
def fifo (T : Type*) [DecidableEq T] (schedInfoOn : Bool) (setparamDl : Task → SchedAttr → Task)
    (P : Task → Prop) : System (T → Option Task) where
  init s := ∀ t p, s t = some p → p.normalPrio = normalPrio p
  step := Step schedInfoOn setparamDl P

section Cache

variable {on : Bool} {setparamDl : Task → SchedAttr → Task} {p q : Task}

theorem setscheduler_cached {attr : SchedAttr} {keepBoost : Bool} {piTask : Option Task}
    (h : attr.keepParams = false) :
    (setscheduler setparamDl piTask p attr keepBoost).normalPrio =
      normalPrio (setscheduler setparamDl piTask p attr keepBoost) := by
  unfold setscheduler
  simp only [h, Bool.false_eq_true, if_false]
  cases keepBoost <;> rfl

theorem revertOnFork_cached (h : p.schedResetOnFork = true) :
    (revertOnFork p).normalPrio = normalPrio (revertOnFork p) := by
  unfold revertOnFork
  rw [if_pos h]
  dsimp only
  split_ifs with h₁ h₂ <;> simp_all [normalPrio, dlPolicy, rtPolicy, baseNormalPrio]

/-- `finishFork` keeps a right cache, and a wrong one unless the task is reset. -/
theorem finishFork_cached_iff (h : finishFork on p = .ok q) :
    q.normalPrio = normalPrio q ↔
      p.schedResetOnFork = true ∨ p.normalPrio = normalPrio p := by
  obtain ⟨-, rfl⟩ := finishFork_ok h
  have hsame : ∀ r : Task, (clearSchedInfo on r).normalPrio = normalPrio (clearSchedInfo on r) ↔
      r.normalPrio = normalPrio r := by
    intro r
    cases on <;> rfl
  rw [hsame]
  cases hr : p.schedResetOnFork with
  | true => simpa [normalPrio, baseNormalPrio] using revertOnFork_cached hr
  | false =>
    have : revertOnFork p = p := by simp [revertOnFork, hr]
    simp [this, normalPrio, baseNormalPrio]

theorem normalPrio_converted (hp : p.policy = .fifo)
    (hr : p.rtPriority = BitVec.ofInt 32 (maxRtPrio / 2)) : normalPrio p = maxRtPrio / 2 - 1 := by
  simp only [normalPrio, hp, hr]
  rfl

theorem schedFork_cached_iff (hq : q.normalPrio = normalPrio q) (h : schedFork on q = .ok p) :
    p.normalPrio = normalPrio p ↔ ¬ Converts q := by
  unfold schedFork at h
  rw [finishFork_cached_iff h]
  by_cases hn : q.policy = .normal
  · cases hr : q.schedResetOnFork with
    | true => simp [hn, hr, Converts]
    | false =>
      simp only [hn, hr, Converts, if_true]
      rw [normalPrio_converted rfl rfl]
      decide
  · simp only [hn, Converts, if_false, false_and, not_false_iff, iff_true]
    exact Or.inr hq

end Cache

section Boost

variable {on : Bool} {p q : Task}

theorem revertOnFork_prio (h : q.schedResetOnFork = true) (b : ℤ) :
    revertOnFork { q with prio := b } = revertOnFork q := by
  unfold revertOnFork
  dsimp only
  split_ifs <;> rfl

theorem revertOnFork_unboosted (h : p.schedResetOnFork = true ∨ p.prio = p.normalPrio) :
    (revertOnFork p).prio = (revertOnFork p).normalPrio := by
  unfold revertOnFork
  dsimp only
  split_ifs with hr
  · rfl
  · rfl
  · rfl
  · exact h.resolve_left hr

theorem schedFork_prio (h : q.policy = .normal ∨ q.schedResetOnFork = true) (b : ℤ) :
    schedFork on { q with prio := b } = schedFork on q := by
  unfold schedFork finishFork
  by_cases hn : q.policy = .normal
  · simp only [hn, if_true]
  · have hr := h.resolve_left hn
    simp only [hn, if_false]
    exact congrArg (fun p => (classOnFork p).map (clearSchedInfo on))
      (revertOnFork_prio (q := { q with state := taskNew }) hr b)

theorem schedFork_unboosted (h : q.policy = .normal ∨ q.schedResetOnFork = true)
    (hf : schedFork on q = .ok p) : p.prio = p.normalPrio ∧
      p.schedClass = if p.normalPrio < maxRtPrio then .rt else .fair := by
  unfold schedFork at hf
  obtain ⟨-, rfl⟩ := finishFork_ok hf
  have hprio := revertOnFork_unboosted (p := if q.policy = .normal then
      { q with
        state := taskNew
        prio := maxRtPrio / 2
        normalPrio := maxRtPrio / 2
        rtPriority := BitVec.ofInt 32 (maxRtPrio / 2)
        policy := .fifo }
    else { q with state := taskNew }) (by
      split
      case isTrue => exact Or.inr rfl
      case isFalse hn => exact Or.inl (h.resolve_left hn))
  cases on <;> simp [clearSchedInfo, rtPrio, hprio]

theorem schedFork_inherits (on : Bool) (hn : q.policy ≠ .normal) (hr : q.schedResetOnFork = false) :
    (dlPrio q.prio = true → schedFork on q = .error .eagain) ∧
    (dlPrio q.prio = false → ∃ p, schedFork on q = .ok p ∧ p.prio = q.prio ∧
      p.normalPrio = q.normalPrio ∧ p.schedClass = if q.prio < maxRtPrio then .rt else .fair) := by
  have hrev : revertOnFork { q with state := taskNew } = { q with state := taskNew } := by
    simp [revertOnFork, hr]
  simp only [schedFork, hn, if_false, finishFork, hrev, classOnFork]
  constructor
  · intro hd
    simp [hd, Except.map]
  · intro hd
    by_cases hrt : q.prio < maxRtPrio <;> cases on <;>
      simp [hd, Except.map, clearSchedInfo, rtPrio, hrt]

/-- A fork at a negative priority fails, so a parent of the top priority forks at 0. -/
theorem schedFork_top {b : ℤ} (hn : q.policy ≠ .normal) (hr : q.schedResetOnFork = false)
    (h0 : q.normalPrio ≤ 0) (hb : b ≤ q.normalPrio)
    (hp : schedFork on { q with prio := b } = .ok p) : b = 0 ∧ q.normalPrio = 0 := by
  have hneg : ¬ b < 0 := by
    intro hlt
    have hfail := (schedFork_inherits (q := { q with prio := b }) on hn hr).1 (decide_eq_true hlt)
    rw [hfail] at hp
    cases hp
  omega

end Boost

/-- A boosted parent hands no boost to its child, exactly when its fork converts the child, resets
it, or no boost of the parent lets the fork succeed, since it runs at the top priority already. -/
theorem boost_contained_iff (on : Bool) (q : Task) :
    (∀ b ≤ q.normalPrio, ∀ p, schedFork on { q with prio := b } = .ok p →
      p.prio = p.normalPrio ∧ (p.schedClass = if p.normalPrio < maxRtPrio then .rt else .fair) ∧
      ∀ b' ≤ q.normalPrio, ∀ p', schedFork on { q with prio := b' } = .ok p' → p' = p) ↔
    q.policy = .normal ∨ q.schedResetOnFork = true ∨ q.normalPrio ≤ 0 := by
  constructor
  · intro h
    by_contra hne
    rw [not_or, not_or, Int.not_le] at hne
    obtain ⟨hn, hr, hpos⟩ := hne
    -- A boost to priority 0 is above every positive one, and the child keeps it.
    have hr : q.schedResetOnFork = false := by simpa using hr
    obtain ⟨p, hp, hprio, hnormal, -⟩ :=
      (schedFork_inherits (q := { q with prio := 0 }) on hn hr).2 rfl
    have hle : 0 ≤ q.normalPrio := Int.le_of_lt hpos
    have hleak := (h 0 hle p hp).1
    rw [hprio, hnormal] at hleak
    exact absurd hleak (Int.ne_of_lt hpos)
  · intro h b hb p hp
    by_cases hc : q.policy = .normal ∨ q.schedResetOnFork = true
    · rw [schedFork_prio hc] at hp
      obtain ⟨hprio, hclass⟩ := schedFork_unboosted hc hp
      refine ⟨hprio, hclass, fun b' _ p' hp' => ?_⟩
      rw [schedFork_prio hc, hp] at hp'
      exact (Except.ok.inj hp').symm
    · obtain ⟨hn, hr⟩ := not_or.mp hc
      have h0 : q.normalPrio ≤ 0 := (h.resolve_left hn).resolve_left hr
      have hr : q.schedResetOnFork = false := by simpa using hr
      obtain ⟨rfl, hnormal⟩ := schedFork_top hn hr h0 hb hp
      obtain ⟨r, hr', hprio, hnormal', hclass⟩ :=
        (schedFork_inherits (q := { q with prio := 0 }) on hn hr).2 rfl
      obtain rfl := Except.ok.inj (hr'.symm.trans hp)
      refine ⟨by rw [hprio, hnormal']; exact hnormal.symm, ?_, fun b' hb' p' hp' => ?_⟩
      · rw [hclass, hnormal', hnormal]
      · obtain ⟨rfl, -⟩ := schedFork_top hn hr h0 hb' hp'
        exact Except.ok.inj (hp'.symm.trans hp)

/-- A `SCHED_FIFO` task of priority 89 that is boosted to 20 has a child of priority 20. -/
theorem boost_leaks : ∃ p, schedFork true
    ⟨1, taskRunning, 20, 120, 89, 10, .fifo, .rt, false, ⟨0, 0, 0, 0⟩, 0⟩ = .ok p ∧
      p.prio = 20 ∧ p.normalPrio = 89 :=
  ⟨_, rfl, rfl, rfl⟩

/-- In every run without a fork that converts the child for good, `normal_prio` is right in every
task; the first fork that does so breaks it. -/
theorem normalPrio_cached {on : Bool} {setparamDl : Task → SchedAttr → Task} {s : T → Option Task}
    (h : (fifo T on setparamDl fun q => ¬ Converts q).Reachable s) :
    (∀ t p, s t = some p → p.normalPrio = normalPrio p) ∧
    ∀ t q p, s t = some q → schedFork on q = .ok p →
      (p.normalPrio = normalPrio p ↔ ¬ Converts q) := by
  have hinv : ∀ t p, s t = some p → p.normalPrio = normalPrio p := by
    refine h.invariant (I := fun s => ∀ t p, s t = some p → p.normalPrio = normalPrio p)
      (fun s hs => hs) ?_
    rintro s s' hs hstep t p hp
    cases hstep with
    | @fork parent child q r hq hP hc hr =>
      rcases eq_or_ne t child with rfl | ht
      · obtain rfl : r = p := by simpa using hp
        exact (schedFork_cached_iff (hs parent q hq) hr).mpr hP
      · exact hs t p (by simpa [ht] using hp)
    | @setscheduler u attr keepBoost piTask r hr hk =>
      rcases eq_or_ne t u with rfl | ht
      · obtain rfl : Fifo.setscheduler setparamDl piTask r attr keepBoost = p := by simpa using hp
        exact setscheduler_cached hk
      · exact hs t p (by simpa [ht] using hp)
  exact ⟨hinv, fun t q p hq hf => schedFork_cached_iff (hinv t q hq) hf⟩

def oneTask : ℕ → Option Task
  | 0 => some ⟨1, taskRunning, 120, 120, 120, 0, .normal, .fair, false, ⟨0, 0, 0, 0⟩, 0⟩
  | _ + 1 => none

theorem oneTask_cached : ∀ t p, oneTask t = some p → p.normalPrio = normalPrio p := by
  rintro (_ | t) p hp
  · cases hp
    decide
  · cases hp

/-- The task asks for `SCHED_BATCH` and forks. -/
theorem normalPrio_cached_batch : ∃ s : ℕ → Option Task,
    (fifo ℕ true (fun p _ => p) fun q => ¬ Converts q).Reachable s ∧
    ∃ p, s 1 = some p ∧ p.policy = .batch ∧ p.normalPrio = normalPrio p := by
  have h : (fifo ℕ true (fun p _ => p) fun q => ¬ Converts q).Reachable oneTask :=
    .init oneTask_cached
  have h := h.tail (.setscheduler 0 ⟨some .batch, false, 0, 0⟩ false none rfl rfl)
  have h := h.tail (.fork 0 1 rfl (by decide) rfl rfl)
  exact ⟨_, h, _, rfl, rfl, (normalPrio_cached h).1 1 _ rfl⟩

/-- The child of a `SCHED_NORMAL` task caches priority 50, but its priority is 49. -/
theorem normalPrio_stale : ∃ s : ℕ → Option Task,
    (fifo ℕ true (fun p _ => p) fun _ => True).Reachable s ∧
    ∃ p, s 1 = some p ∧ p.policy = .fifo ∧ p.normalPrio = 50 ∧ normalPrio p = 49 := by
  have h : (fifo ℕ true (fun p _ => p) fun _ => True).Reachable oneTask := .init oneTask_cached
  have h := h.tail (.fork 0 1 rfl trivial rfl rfl)
  exact ⟨_, h, _, rfl, rfl, rfl, rfl⟩

end OperatingSystem.Kernel.Fifo
