import Mathlib.Algebra.Ring.Nat
import OperatingSystem.Kernel.Cfs

/-! # CPU burst accounting

The log of the switches gives every stay of a task on a CPU. In every run of the
CFS kernel `accumulated_cputime` of a forked task is the length of its stays, and a
dead task's last stay is counted before its burst time is printed.
-/

namespace OperatingSystem.Kernel

variable {C T : Type*} [DecidableEq T]

/-- The clock at which a running task arrived, from a log with the newest switch first. -/
def arrival (t : T) : List (Switch C T) → Option ℕ
  | [] => none
  | e :: log => if e.next = t then some e.clock else if e.prev = t then none else arrival t log

/-- The completed stays of a task: each pairs a switch from the task with its last arrival. -/
def stays (t : T) : List (Switch C T) → List (ℕ × ℕ)
  | [] => []
  | e :: log =>
    if e.prev = t then (arrival t log).toList.map (·, e.clock) ++ stays t log else stays t log

def total : List (ℕ × ℕ) → ℕ
  | [] => 0
  | (a, b) :: l => b - a + total l

section History

variable {t : T} {log : List (Switch C T)} {e : Switch C T}

theorem arrival_of_notMem (h : ∀ e ∈ log, e.prev ≠ t ∧ e.next ≠ t) : arrival t log = none := by
  induction log with
  | nil => rfl
  | cons e log ih =>
    obtain ⟨⟨hp, hn⟩, hl⟩ := List.forall_mem_cons.mp h
    rw [arrival, if_neg hn, if_neg hp, ih hl]

theorem stays_of_notMem (h : ∀ e ∈ log, e.prev ≠ t ∧ e.next ≠ t) : stays t log = [] := by
  induction log with
  | nil => rfl
  | cons e log ih =>
    obtain ⟨⟨hp, -⟩, hl⟩ := List.forall_mem_cons.mp h
    rw [stays, if_neg hp, ih hl]

theorem stays_depart {a : ℕ} (hp : e.prev = t) (ha : arrival t log = some a) :
    stays t (e :: log) = (a, e.clock) :: stays t log := by
  simp [stays, hp, ha]

theorem stays_other (hp : e.prev ≠ t) : stays t (e :: log) = stays t log := by
  simp [stays, hp]

/-- Adding the length of a stay wraps around as the clock does. -/
theorem ofNat_total_cons {a b : BitVec 64} {l : List (ℕ × ℕ)} (h : a ≤ b) :
    BitVec.ofNat 64 (total l) + (b - a) = BitVec.ofNat 64 (total ((a.toNat, b.toNat) :: l)) := by
  apply BitVec.eq_of_toNat_eq
  rw [BitVec.toNat_add, BitVec.toNat_sub_of_le h, BitVec.toNat_ofNat, BitVec.toNat_ofNat]
  simp only [total]
  omega

end History

variable {m m' : Machine C T} {t : T} {c : C}

/-- What the kernel knows of a task that has been forked and is not an idle task. -/
structure Account (m : Machine C T) (t : T) : Prop where
  running : ∀ c, (m.rq c).curr = t → (m.task t).schedInfo.lastArrival ≤ (m.rq c).clock ∧
    arrival t m.log = some (m.task t).schedInfo.lastArrival.toNat
  unique : ∀ c c', (m.rq c).curr = t → (m.rq c').curr = t → c = c'
  away : (∀ c, (m.rq c).curr ≠ t) → arrival t m.log = none
  ordered : ∀ i ∈ stays t m.log, i.1 ≤ i.2
  exact : (m.task t).accumulatedCputime = BitVec.ofNat 64 (total (stays t m.log))

structure Accounted (m : Machine C T) : Prop where
  curr : ∀ c, (m.rq c).curr ∈ m.tasks
  forked : ∀ t ∈ m.forked, t ∈ m.tasks
  log : ∀ e ∈ m.log, e.prev ∈ m.tasks ∧ e.next ∈ m.tasks
  account : ∀ t ∈ m.forked, (∀ c, (m.rq c).idle ≠ t) → Account m t

structure Quiet (m m' : Machine C T) : Prop where
  curr : ∀ c, (m'.rq c).curr = (m.rq c).curr
  idle : ∀ c, (m'.rq c).idle = (m.rq c).idle
  clock : ∀ c, (m.rq c).clock ≤ (m'.rq c).clock
  log : m'.log = m.log
  arrival : ∀ t ∈ m.tasks, (m'.task t).schedInfo.lastArrival = (m.task t).schedInfo.lastArrival
  cputime : ∀ t ∈ m.tasks, (m'.task t).accumulatedCputime = (m.task t).accumulatedCputime

theorem Account.quiet (h : Account m t) (hq : Quiet m m') (ht : t ∈ m.tasks) : Account m' t := by
  refine ⟨?_, ?_, ?_, ?_, ?_⟩
  · intro c hc
    rw [hq.curr] at hc
    obtain ⟨hle, ha⟩ := h.running c hc
    rw [hq.arrival t ht, hq.log]
    exact ⟨BitVec.le_trans hle (hq.clock c), ha⟩
  · intro c c' hc hc'
    rw [hq.curr] at hc hc'
    exact h.unique c c' hc hc'
  · intro hc
    rw [hq.log]
    exact h.away fun c => hq.curr c ▸ hc c
  · rw [hq.log]
    exact h.ordered
  · rw [hq.cputime t ht, hq.log]
    exact h.exact

theorem Accounted.quiet (h : Accounted m) (hq : Quiet m m') (ht : m'.tasks = m.tasks)
    (hf : m'.forked = m.forked) : Accounted m' := by
  refine ⟨fun c => ?_, ?_, ?_, fun t htf hidle => ?_⟩
  · rw [hq.curr, ht]
    exact h.curr c
  · rw [hf, ht]
    exact h.forked
  · rw [hq.log, ht]
    exact h.log
  · rw [hf] at htf
    exact (h.account t htf fun c => hq.idle c ▸ hidle c).quiet hq (h.forked t htf)

section Quiet

open Machine

theorem Quiet.setTask {p : Task}
    (ha : p.schedInfo.lastArrival = (m.task t).schedInfo.lastArrival)
    (hc : p.accumulatedCputime = (m.task t).accumulatedCputime) : Quiet m (m.setTask t p) := by
  refine ⟨fun _ => rfl, fun _ => rfl, fun _ => BitVec.le_refl _, rfl, fun u _ => ?_, fun u _ => ?_⟩
  · rcases eq_or_ne u t with rfl | hu
    · simpa [Machine.setTask] using ha
    · simp [Machine.setTask, hu]
  · rcases eq_or_ne u t with rfl | hu
    · simpa [Machine.setTask] using hc
    · simp [Machine.setTask, hu]

omit [DecidableEq T] in
theorem Quiet.setRq [DecidableEq C] {rq : Rq T} (hc : rq.curr = (m.rq c).curr)
    (hi : rq.idle = (m.rq c).idle) (hle : (m.rq c).clock ≤ rq.clock) :
    Quiet m (m.setRq c rq) := by
  refine ⟨fun d => ?_, fun d => ?_, fun d => ?_, rfl, fun _ _ => rfl, fun _ _ => rfl⟩
  · rcases eq_or_ne d c with rfl | hd
    · simpa [Machine.setRq] using hc
    · simp [Machine.setRq, hd]
  · rcases eq_or_ne d c with rfl | hd
    · simpa [Machine.setRq] using hi
    · simp [Machine.setRq, hd]
  · rcases eq_or_ne d c with rfl | hd
    · simpa [Machine.setRq] using hle
    · simp [Machine.setRq, hd]

end Quiet

theorem Accounted.fork {child : T} {p : Task} (h : Accounted m) (hc : child ∉ m.tasks)
    (hp : p.accumulatedCputime = 0) :
    Accounted { m.setTask child p with
      tasks := child :: m.tasks
      forked := child :: m.forked } := by
  have hne : ∀ t ∈ m.tasks, t ≠ child := by
    rintro t ht rfl
    exact hc ht
  have hlog : ∀ e ∈ m.log, e.prev ≠ child ∧ e.next ≠ child := by
    intro e he
    obtain ⟨h₁, h₂⟩ := h.log e he
    exact ⟨hne _ h₁, hne _ h₂⟩
  have hq : Quiet m { m.setTask child p with
      tasks := child :: m.tasks
      forked := child :: m.forked } := by
    refine ⟨fun _ => rfl, fun _ => rfl, fun _ => BitVec.le_refl _, rfl, fun t ht => ?_,
      fun t ht => ?_⟩ <;> simp [Machine.setTask, hne t ht]
  refine ⟨fun c => List.mem_cons_of_mem _ (h.curr c), fun t ht => ?_, fun e he => ?_,
    fun t ht hidle => ?_⟩
  · rcases List.mem_cons.mp ht with rfl | ht
    · exact List.mem_cons_self
    · exact List.mem_cons_of_mem _ (h.forked t ht)
  · obtain ⟨h₁, h₂⟩ := h.log e he
    exact ⟨List.mem_cons_of_mem _ h₁, List.mem_cons_of_mem _ h₂⟩
  · rcases List.mem_cons.mp ht with rfl | ht
    · have hcurr : ∀ c, (m.rq c).curr ≠ t := fun c => hne _ (h.curr c)
      refine ⟨fun c hc' => absurd hc' (hcurr c), fun c _ hc' => absurd hc' (hcurr c),
        fun _ => arrival_of_notMem hlog, ?_, ?_⟩
      · simp [Machine.setTask, stays_of_notMem hlog]
      · simp [Machine.setTask, stays_of_notMem hlog, hp, total]
    · exact (h.account t ht hidle).quiet hq (h.forked t ht)

section Switch

variable [DecidableEq C] {next : T}

open Machine

theorem Account.depart (h : Account m t) (hs : Switched c next m m') (hc : (m.rq c).curr = t)
    (hn : next ≠ t) (hidle : (m.rq c).idle ≠ t) : Account m' t := by
  subst hc
  obtain ⟨hle, ha⟩ := h.running c rfl
  have hstays := stays_depart
    (e := ⟨c, (m.rq c).clock.toNat, (m.rq c).curr, next⟩) rfl ha
  rw [← hs.log] at hstays
  have hcurr : ∀ d, (m'.rq d).curr ≠ (m.rq c).curr := by
    intro d
    rw [hs.curr]
    split
    case isTrue => exact hn
    case isFalse hd => exact fun he => hd (h.unique d c he rfl)
  refine ⟨fun d hd => absurd hd (hcurr d), fun d _ hd => absurd hd (hcurr d), fun _ => ?_, ?_, ?_⟩
  · rw [hs.log, arrival, if_neg hn, if_pos rfl]
  · rw [hstays]
    exact List.forall_mem_cons.mpr ⟨hle, h.ordered⟩
  · rw [hs.depart hidle.symm, hstays, h.exact, ofNat_total_cons hle]

theorem Account.arrive (h : Account m t) (hs : Switched c t m m') (hc : ∀ d, (m.rq d).curr ≠ t)
    (hidle : (m.rq c).idle ≠ t) : Account m' t := by
  obtain ⟨ha, hacc⟩ := hs.arrive hidle.symm
  have hcurr : ∀ d, (m'.rq d).curr = t → d = c := by
    intro d hd
    rw [hs.curr] at hd
    split at hd
    case isTrue he => exact he
    case isFalse => exact absurd hd (hc d)
  have hstays : stays t m'.log = stays t m.log := by
    rw [hs.log]
    exact stays_other (hc c)
  refine ⟨?_, ?_, ?_, ?_, ?_⟩
  · intro d hd
    obtain rfl := hcurr d hd
    rw [ha, hs.clock, hs.log, arrival, if_pos rfl]
    exact ⟨BitVec.le_refl _, rfl⟩
  · intro d d' hd hd'
    rw [hcurr d hd, hcurr d' hd']
  · intro hd
    exact absurd (by simp [hs.curr]) (hd c)
  · rw [hstays]
    exact h.ordered
  · rw [hacc, hstays]
    exact h.exact

theorem Account.bystander (h : Account m t) (hs : Switched c next m m') (hp : (m.rq c).curr ≠ t)
    (hn : next ≠ t) : Account m' t := by
  have htask := hs.other t hp.symm hn.symm
  have harr : arrival t m'.log = arrival t m.log := by
    rw [hs.log, arrival, if_neg hn, if_neg hp]
  have hstays : stays t m'.log = stays t m.log := by
    rw [hs.log]
    exact stays_other hp
  have hcurr : ∀ d, (m'.rq d).curr = t ↔ (m.rq d).curr = t := by
    intro d
    rw [hs.curr]
    split
    case isTrue he => simp [he, hn, hp]
    case isFalse => rfl
  refine ⟨?_, ?_, ?_, ?_, ?_⟩
  · intro d hd
    rw [htask, hs.clock, harr]
    exact h.running d ((hcurr d).mp hd)
  · intro d d' hd hd'
    exact h.unique d d' ((hcurr d).mp hd) ((hcurr d').mp hd')
  · intro hd
    rw [harr]
    exact h.away fun d => (not_congr (hcurr d)).mp (hd d)
  · rw [hstays]
    exact h.ordered
  · rw [htask, hstays]
    exact h.exact

theorem Accounted.switch (h : Accounted m) (hs : Switched c next m m') (hn : next ∈ m.tasks)
    (hc : ∀ d, (m.rq d).curr ≠ next) : Accounted m' := by
  refine ⟨?_, ?_, ?_, ?_⟩
  · intro d
    rw [hs.curr, hs.tasks]
    split
    · exact hn
    · exact h.curr d
  · rw [hs.forked, hs.tasks]
    exact h.forked
  · rw [hs.log, hs.tasks]
    exact List.forall_mem_cons.mpr ⟨⟨h.curr c, hn⟩, h.log⟩
  · intro t ht hidle
    rw [hs.forked] at ht
    have hidle : ∀ d, (m.rq d).idle ≠ t := fun d => hs.idle d ▸ hidle d
    have hacc := h.account t ht hidle
    rcases eq_or_ne (m.rq c).curr t with hp | hp
    · exact hacc.depart hs hp (fun he => hc c (hp.trans he.symm)) (hidle c)
    · rcases eq_or_ne next t with rfl | hnt
      · exact hacc.arrive hs hc (hidle c)
      · exact hacc.bystander hs hp hnt

end Switch

variable [DecidableEq C]

theorem Accounted.step (h : Accounted m) (hstep : Step true m m') : Accounted m' := by
  cases hstep with
  | clock c now hle => exact h.quiet (.setRq rfl rfl hle) rfl rfl
  | fork c child pid hc hp =>
    have hzero := Cfs.schedFork_cputime hp
    exact h.fork hc hzero
  | setState t state _ => exact h.quiet (.setTask rfl rfl) rfl rfl
  | die c => exact h.quiet (.setTask rfl rfl) rfl rfl
  | enqueue c t =>
    obtain ⟨q, hq⟩ := schedInfoQueued_eq true (m.rq c) (m.task t)
    rw [hq]
    exact h.quiet (.setTask rfl rfl) rfl rfl
  | dequeue c t =>
    have hq : Quiet m (m.setRq c (schedInfoDequeued true (m.rq c) (m.task t)).1) :=
      .setRq rfl rfl (BitVec.le_refl _)
    exact (h.quiet hq rfl rfl).quiet (.setTask rfl rfl) rfl rfl
  | schedule c next hn hc => exact h.switch (Machine.contextSwitch_spec (hc c)) hn hc

theorem cfs_accounted (h : (cfs C T true).Reachable m) : Accounted m := by
  refine h.invariant (fun m hm => ?_) fun m m' hm hstep => hm.step hstep
  refine ⟨hm.curr, ?_, ?_, ?_⟩
  · simp [hm.forked]
  · simp [hm.log]
  · simp [hm.forked]

/-- CPU burst accounting is exact. In every reachable state the `accumulated_cputime` of a forked
task that is not an idle task is the time of its completed stays, modulo the width of the counter.
When such a task is dead and leaves its CPU, the value printed is the time of its stays with the one
that just ended. -/
theorem cputime_exact (h : (cfs C T true).Reachable m) :
    (∀ t ∈ m.forked, (∀ c, (m.rq c).idle ≠ t) →
      (∀ i ∈ stays t m.log, i.1 ≤ i.2) ∧
      (m.task t).accumulatedCputime.toNat = total (stays t m.log) % 2 ^ 64) ∧
    (∀ c next, next ∈ m.tasks → (∀ c', (m.rq c').curr ≠ next) →
      ∀ t ∈ m.forked, (m.rq c).curr = t → (∀ c', (m.rq c').idle ≠ t) →
      (m.task t).state = taskDead →
      ∃ a burst, arrival t m.log = some a ∧
        stays t (m.contextSwitch true c next).log = (a, (m.rq c).clock.toNat) :: stays t m.log ∧
        (m.contextSwitch true c next).printed = m.printed ++ [((m.task t).pid, burst)] ∧
        burst.toNat = total ((a, (m.rq c).clock.toNat) :: stays t m.log) % 2 ^ 64) := by
  have hacc := cfs_accounted h
  constructor
  · intro t ht hidle
    have ha := hacc.account t ht hidle
    exact ⟨ha.ordered, by rw [ha.exact, BitVec.toNat_ofNat]⟩
  · rintro c next hn hc t ht rfl hidle hdead
    have hs := Machine.contextSwitch_spec (hc c)
    have ha := hacc.account _ ht hidle
    obtain ⟨hle, harr⟩ := ha.running c rfl
    have hstays := stays_depart
      (e := ⟨c, (m.rq c).clock.toNat, (m.rq c).curr, next⟩) rfl harr
    rw [← hs.log] at hstays
    have ha' := ha.depart hs rfl (fun he => hc c he.symm) (hidle c)
    refine ⟨_, _, harr, hstays, hs.printed hdead, ?_⟩
    rw [ha'.exact, hstays, BitVec.toNat_ofNat]

def twoTasks : Machine Unit ℕ where
  task t := ⟨t, taskRunning, 120, 120, 120, 0, .normal, .fair, false, ⟨1, 0, 40, 0⟩, 7⟩
  tasks := [0, 1]
  rq _ := ⟨100, 1, 0, ⟨1, 0, 0, 0⟩, 0⟩
  printed := []
  forked := []
  log := []

/-- A child of task 1 that runs from 150 to 180 and dies has a burst time of 30. -/
theorem cputime_exact_child : ∃ m : Machine Unit ℕ, (cfs Unit ℕ true).Reachable m ∧
    (m.task 2).state = taskDead ∧ ∃ burst : BitVec 64,
      (m.contextSwitch true () 1).printed = m.printed ++ [(2, burst)] ∧ burst.toNat = 30 := by
  have h : (cfs Unit ℕ true).Reachable twoTasks := .init ⟨fun () => by decide, rfl, rfl, rfl⟩
  have h := h.tail (.fork () 2 2 (by decide) rfl)
  have h := h.tail (.clock () 150 (by decide))
  have h := h.tail (.schedule () 2 (by decide) fun () => by decide)
  have h := h.tail (.clock () 180 (by decide))
  have h := h.tail (.die ())
  obtain ⟨a, burst, ha, -, hp, hb⟩ := (cputime_exact h).2 () 1 (by decide) (fun () => by decide)
    2 (by decide) rfl (fun () => by decide) rfl
  obtain rfl : 150 = a := Option.some.inj ha
  exact ⟨_, h, rfl, burst, hp, hb⟩

end OperatingSystem.Kernel
