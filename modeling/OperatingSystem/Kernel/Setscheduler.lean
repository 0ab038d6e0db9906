import OperatingSystem.Kernel.Fifo

/-! # Policy requests in the FIFO kernel

`_sched_setscheduler` with the checks of `__sched_setscheduler`. Both conversions of
the kernel look for `SCHED_NORMAL` before later code in the same function writes that
policy back: the revert of `sched_fork`, and the removal of the `SCHED_RESET_ON_FORK`
bit from a requested policy.
-/

namespace OperatingSystem.Kernel

/-- The `policy` argument: `SETPARAM_POLICY`, or the value bits of a number that the system call
has checked not to be negative. -/
inductive PolicyArg where
  | setparam
  | value (bits : BitVec 31)
  deriving DecidableEq, Repr

def resetOnForkBit : BitVec 31 := 0x40000000

/-- The policy of a number, if `valid_policy` accepts it. -/
def Policy.ofBits (bits : BitVec 31) : Option Policy :=
  if bits = 0 then some .normal
  else if bits = 1 then some .fifo
  else if bits = 2 then some .rr
  else if bits = 3 then some .batch
  else if bits = 5 then some .idle
  else if bits = 6 then some .deadline
  else none

def maxUserRtPrio : ℤ := 100

def taskNice (p : Task) : ℤ := prioToNice p.staticPrio

namespace Fifo

/-- The bits of `sched_flags`; `unknown` is any bit outside `SCHED_FLAG_ALL` and
`SCHED_FLAG_SUGOV`. -/
structure SchedFlags where
  resetOnFork : Bool
  keepParams : Bool
  utilClamp : Bool
  sugov : Bool
  unknown : Bool
  deriving DecidableEq, Repr

structure SchedRequest where
  policy : PolicyArg
  flags : SchedFlags
  nice : ℤ
  priority : BitVec 32
  deriving DecidableEq, Repr

/-- The attributes that `__setscheduler` reads, for a valid policy. -/
def SchedRequest.attr (r : SchedRequest) : SchedAttr where
  schedPolicy := match r.policy with
    | .setparam => none
    | .value bits => Policy.ofBits bits
  keepParams := r.flags.keepParams
  schedNice := r.nice
  schedPriority := r.priority

/-- What `__sched_setscheduler` asks other parts of the kernel about the task. -/
structure Context where
  /-- `p->mm` is set. -/
  mm : Bool
  capable : Bool
  canNice : ℤ → Bool
  rlimRtprio : ℕ
  checkSameOwner : Bool
  checkparamDl : Bool
  securityTaskSetscheduler : ℤ
  uclampValidate : ℤ
  /-- The task is the stop task of its CPU. -/
  stop : Bool
  dlParamChanged : Bool
  /-- The group of the task has no runtime for real-time tasks. -/
  noRtRuntime : Bool
  /-- The task may not run on its whole root domain, or that has no bandwidth. -/
  noDlBandwidth : Bool
  schedDlOverflow : Bool
  /-- The task returned by `rt_mutex_get_top_task`. -/
  topTask : Option Task

inductive Refusal where
  | einval
  | eperm
  | ebusy
  | retval (code : ℤ)
  deriving DecidableEq, Repr

/-- The policy and the `reset_on_fork` flag of a request, if the policy is valid. -/
def requested (p : Task) (r : SchedRequest) : Option (Policy × Bool) :=
  match r.policy with
  | .setparam => some (p.policy, p.schedResetOnFork)
  | .value bits => (Policy.ofBits bits).map fun policy => (policy, r.flags.resetOnFork)

def permitted (k : Context) (p : Task) (r : SchedRequest) (policy : Policy) (resetOnFork : Bool) :
    Bool :=
  !(fairPolicy policy && r.nice < taskNice p && !k.canNice r.nice) &&
  !(rtPolicy policy && policy ≠ p.policy && k.rlimRtprio = 0) &&
  !(rtPolicy policy && p.rtPriority < r.priority && k.rlimRtprio < r.priority.toNat) &&
  !dlPolicy policy &&
  !(p.policy = .idle && policy ≠ .idle && !k.canNice (taskNice p)) &&
  k.checkSameOwner &&
  !(p.schedResetOnFork && !resetOnFork)

def refusal (k : Context) (p : Task) (r : SchedRequest) (user : Bool) (policy : Policy)
    (resetOnFork : Bool) : Option Refusal :=
  if r.flags.unknown then some .einval
  else if (k.mm && maxUserRtPrio - 1 < r.priority.toNat) ||
      (!k.mm && maxRtPrio - 1 < r.priority.toNat) then some .einval
  else if (dlPolicy policy && !k.checkparamDl) || rtPolicy policy != (r.priority != 0) then
    some .einval
  else if user && !k.capable && !permitted k p r policy resetOnFork then some .eperm
  else if user && r.flags.sugov then some .einval
  else if user && k.securityTaskSetscheduler ≠ 0 then some (.retval k.securityTaskSetscheduler)
  else if r.flags.utilClamp && k.uclampValidate ≠ 0 then some (.retval k.uclampValidate)
  else if k.stop then some .einval
  else none

/-- The request changes nothing but possibly `reset_on_fork`. -/
def unchanged (k : Context) (p : Task) (r : SchedRequest) (policy : Policy) : Bool :=
  policy = p.policy && !(fairPolicy policy && r.nice ≠ taskNice p) &&
    !(rtPolicy policy && r.priority ≠ p.rtPriority) && !(dlPolicy policy && k.dlParamChanged) &&
    !r.flags.utilClamp

def changeRefusal (k : Context) (p : Task) (r : SchedRequest) (user : Bool) (policy : Policy) :
    Option Refusal :=
  if user && k.noRtRuntime && rtPolicy policy then some .eperm
  else if user && k.noDlBandwidth && dlPolicy policy && !r.flags.sugov then some .eperm
  else if (dlPolicy policy || dlPrio p.prio) && k.schedDlOverflow then some .ebusy
  else none

def schedSetschedulerAttr (setparamDl : Task → SchedAttr → Task) (k : Context) (p : Task)
    (r : SchedRequest) (user pi : Bool) : Except Refusal Task :=
  match requested p r with
  | none => .error .einval
  | some (policy, resetOnFork) =>
    match refusal k p r user policy resetOnFork with
    | some e => .error e
    | none =>
      let q := { p with schedResetOnFork := resetOnFork }
      if unchanged k p r policy then .ok q
      else match changeRefusal k p r user policy with
      | some e => .error e
      | none => .ok (setscheduler setparamDl k.topTask q r.attr pi)

/-- The `sched_attr` that `_sched_setscheduler` builds: `SCHED_NORMAL` becomes `SCHED_FIFO`, and
the `SCHED_RESET_ON_FORK` bit becomes a flag. -/
def toRequest (p : Task) (policy : PolicyArg) (schedPriority : BitVec 32) : SchedRequest :=
  let r : SchedRequest := ⟨policy, ⟨false, false, false, false, false⟩, taskNice p, schedPriority⟩
  let r := if r.policy = .value 0 then
      { r with priority := BitVec.ofInt 32 (maxRtPrio / 2), policy := .value 1 }
    else r
  match policy with
  | .setparam => r
  | .value bits =>
    if bits &&& resetOnForkBit ≠ 0 then
      { r with flags.resetOnFork := true, policy := .value (bits &&& ~~~resetOnForkBit) }
    else r

def schedSetscheduler (setparamDl : Task → SchedAttr → Task) (k : Context) (p : Task)
    (policy : PolicyArg) (schedPriority : BitVec 32) (check : Bool) : Except Refusal Task :=
  schedSetschedulerAttr setparamDl k p (toRequest p policy schedPriority) check true

section Requests

variable {setparamDl : Task → SchedAttr → Task} {k : Context} {p p' : Task} {r : SchedRequest}
  {policy : Policy} {reset user pi : Bool}

theorem schedSetschedulerAttr_ok (h : schedSetschedulerAttr setparamDl k p r user pi = .ok p') :
    ∃ policy reset, requested p r = some (policy, reset) ∧
      refusal k p r user policy reset = none ∧
      (policy = p.policy ∧ p' = { p with schedResetOnFork := reset } ∨
        p' = setscheduler setparamDl k.topTask { p with schedResetOnFork := reset } r.attr pi) := by
  unfold schedSetschedulerAttr at h
  split at h
  case h_1 => cases h
  case h_2 policy reset hreq =>
    refine ⟨policy, reset, hreq, ?_⟩
    split at h
    case h_1 => cases h
    case h_2 href =>
      refine ⟨href, ?_⟩
      dsimp only at h
      split at h
      case isTrue hu =>
        have hp : policy = p.policy := by
          simp only [unchanged, Bool.and_eq_true, decide_eq_true_eq] at hu
          exact hu.1.1.1.1
        exact Or.inl ⟨hp, (Except.ok.inj h).symm⟩
      case isFalse =>
        split at h
        case h_1 => cases h
        case h_2 => exact Or.inr (Except.ok.inj h).symm

theorem refusal_none (h : refusal k p r user policy reset = none) :
    r.priority.toNat ≤ 99 ∧ rtPolicy policy = (r.priority != 0) := by
  unfold refusal at h
  split_ifs at h with h₁ h₂ h₃
  constructor
  · have hle : ¬ (maxRtPrio - 1 < r.priority.toNat) := by
      intro hlt
      apply h₂
      have hbound : maxUserRtPrio = maxRtPrio := rfl
      rw [hbound, decide_eq_true hlt]
      cases k.mm <;> rfl
    simp only [maxRtPrio] at hle
    omega
  · simp only [Bool.or_eq_true, not_or] at h₃
    simpa using h₃.2

end Requests

section Bits

variable {bits : BitVec 31}

theorem resetOnForkBit_eq : resetOnForkBit = BitVec.twoPow 31 30 := by decide

theorem getLsbD_clear (bits : BitVec 31) {i : ℕ} (hi : i < 31) :
    (bits &&& ~~~resetOnForkBit).getLsbD i = (bits.getLsbD i && decide (i ≠ 30)) := by
  simp [resetOnForkBit_eq, hi]

/-- Only the bit alone leaves the number of `SCHED_NORMAL` when it is removed. -/
theorem clear_eq_zero_iff (h0 : bits ≠ 0) :
    bits &&& ~~~resetOnForkBit = 0 ↔ bits = resetOnForkBit := by
  constructor
  · intro h
    have hbit : ∀ i < 31, i ≠ 30 → bits.getLsbD i = false := by
      intro i hi hne
      have hz := getLsbD_clear bits hi
      rw [h] at hz
      simpa [hne] using hz.symm
    apply BitVec.eq_of_getLsbD_eq
    intro i hi
    rw [resetOnForkBit_eq]
    rcases eq_or_ne i 30 with rfl | hne
    · by_contra hn
      apply h0
      apply BitVec.eq_of_getLsbD_eq
      intro j hj
      rcases eq_or_ne j 30 with rfl | hj'
      · simpa using hn
      · simpa using hbit j hj hj'
    · have hne' : ¬ 30 = i := fun he => hne he.symm
      simpa [hne'] using hbit i hi hne
  · rintro rfl
    decide

theorem clear_of_and_eq (h : bits &&& resetOnForkBit = 0) : bits &&& ~~~resetOnForkBit = bits := by
  have hbit : bits.getLsbD 30 = false := by
    rw [Bool.eq_false_iff]
    intro ht
    rw [resetOnForkBit_eq, BitVec.and_twoPow, if_pos ht] at h
    exact absurd h (by decide)
  apply BitVec.eq_of_getLsbD_eq
  intro i hi
  rw [getLsbD_clear bits hi]
  rcases eq_or_ne i 30 with rfl | hne
  · rw [hbit, Bool.false_and]
  · simp [hne]

end Bits

section Policies

variable {setparamDl : Task → SchedAttr → Task} {k : Context} {p p' : Task} {prio : BitVec 32}
  {check : Bool}

theorem setscheduler_policy (hdl : ∀ p attr, (setparamDl p attr).policy = p.policy)
    {attr : SchedAttr} {b : Bool} {top : Option Task} (h : attr.keepParams = false) :
    (setscheduler setparamDl top p attr b).policy = attr.schedPolicy.getD p.policy := by
  unfold setscheduler setschedulerParams
  simp only [h, Bool.false_eq_true, if_false]
  cases b <;> split_ifs <;> simp [hdl]

theorem toRequest_keepParams (policy : PolicyArg) :
    (toRequest p policy prio).flags.keepParams = false := by
  unfold toRequest
  cases policy <;> dsimp only <;> split_ifs <;> rfl

theorem toRequest_policy (bits : BitVec 31) : (toRequest p (.value bits) prio).policy =
    .value (if bits = 0 then 1 else bits &&& ~~~resetOnForkBit) := by
  unfold toRequest
  by_cases h0 : bits = 0
  · subst h0
    simp
  · have hne : PolicyArg.value bits ≠ .value 0 := by simpa using h0
    dsimp only
    rw [if_neg hne, if_neg h0]
    split
    case isTrue => rfl
    case isFalse h => rw [clear_of_and_eq (not_not.mp h)]

theorem schedSetscheduler_policy (hdl : ∀ p attr, (setparamDl p attr).policy = p.policy)
    {policy : PolicyArg} (h : schedSetscheduler setparamDl k p policy prio check = .ok p') :
    ∃ reset, requested p (toRequest p policy prio) = some (p'.policy, reset) := by
  obtain ⟨pol, reset, hreq, -, hp⟩ := schedSetschedulerAttr_ok h
  refine ⟨reset, ?_⟩
  rcases hp with ⟨rfl, rfl⟩ | rfl
  · exact hreq
  · rw [hreq, setscheduler_policy hdl (toRequest_keepParams policy)]
    unfold requested at hreq
    unfold SchedRequest.attr
    cases hpol : (toRequest p policy prio).policy with
    | setparam => simp_all
    | value bits =>
      rw [hpol] at hreq
      obtain ⟨a, ha, he⟩ := Option.map_eq_some_iff.mp hreq
      simp_all

theorem ofBits_eq_normal {bits : BitVec 31} : Policy.ofBits bits = some .normal ↔ bits = 0 := by
  unfold Policy.ofBits
  split_ifs <;> simp_all

theorem schedSetscheduler_normal_iff (hdl : ∀ p attr, (setparamDl p attr).policy = p.policy)
    {bits : BitVec 31} (h : schedSetscheduler setparamDl k p (.value bits) prio check = .ok p') :
    p'.policy = .normal ↔ bits = resetOnForkBit := by
  obtain ⟨reset, hreq⟩ := schedSetscheduler_policy hdl h
  unfold requested at hreq
  rw [toRequest_policy] at hreq
  obtain ⟨pol, hpol, he⟩ := Option.map_eq_some_iff.mp hreq
  obtain ⟨rfl, -⟩ := Prod.mk.inj he
  rw [← Option.some_inj, ← hpol, ofBits_eq_normal]
  by_cases h0 : bits = 0
  · subst h0
    decide
  · rw [if_neg h0, clear_eq_zero_iff h0]

end Policies

/-- A fork of this task does not write `SCHED_NORMAL` back. -/
def KeepsPolicy (q : Task) : Prop :=
  q.schedResetOnFork = false ∨ q.policy = .batch ∨ q.policy = .idle

instance : DecidablePred KeepsPolicy := fun _ => inferInstanceAs (Decidable (_ ∨ _))

theorem schedFork_normal_iff {on : Bool} {q p : Task} (h : schedFork on q = .ok p) :
    p.policy = .normal ↔ ¬ KeepsPolicy q := by
  unfold schedFork at h
  obtain ⟨-, rfl⟩ := finishFork_ok h
  unfold KeepsPolicy revertOnFork
  cases hr : q.schedResetOnFork <;> cases hp : q.policy <;> cases on <;>
    simp [clearSchedInfo, dlPolicy, rtPolicy] <;> split_ifs <;> simp

theorem schedFork_fields {on : Bool} {q p : Task} (hr : q.schedResetOnFork = false)
    (h : schedFork on q = .ok p) :
    p.policy = (if q.policy = .normal then .fifo else q.policy) ∧
    p.prio = (if q.policy = .normal then maxRtPrio / 2 else q.prio) ∧
    p.schedClass = if rtPrio p.prio then .rt else .fair := by
  unfold schedFork at h
  obtain ⟨-, rfl⟩ := finishFork_ok h
  by_cases hn : q.policy = .normal <;> cases on <;> simp [revertOnFork, clearSchedInfo, hr, hn]

theorem schedFork_policy {on : Bool} {q p : Task} (hq : q.policy = .batch ∨ q.policy = .idle)
    (h : schedFork on q = .ok p) : p.policy = q.policy := by
  unfold schedFork at h
  obtain ⟨-, rfl⟩ := finishFork_ok h
  unfold revertOnFork
  rcases hq with hq | hq <;> cases on <;> simp [clearSchedInfo, hq, dlPolicy, rtPolicy] <;>
    split_ifs <;> simp

/-- The priority and the class of a task fit a real-time or deadline policy. -/
def Consistent (p : Task) : Prop :=
  rtPolicy p.policy = true ∨ dlPolicy p.policy = true → p.prio < maxRtPrio ∧ p.schedClass ≠ .fair

theorem normalPrio_lt {p : Task} (hp : rtPolicy p.policy = true ∨ dlPolicy p.policy = true)
    (h : p.rtPriority.toNat ≤ 99) : normalPrio p < maxRtPrio := by
  unfold normalPrio
  split_ifs with hd hr
  · decide
  · have hsub : BitVec.ofInt 32 (maxRtPrio - 1) - p.rtPriority =
        BitVec.ofNat 32 (99 - p.rtPriority.toNat) := by
      apply BitVec.eq_of_toNat_eq
      have h99 : (BitVec.ofInt 32 (maxRtPrio - 1)).toNat = 99 := by decide
      rw [BitVec.toNat_sub, h99, BitVec.toNat_ofNat]
      omega
    have hle : (BitVec.ofNat 32 (99 - p.rtPriority.toNat)).toInt ≤ 99 := by
      rw [BitVec.toInt_eq_toNat_of_lt] <;> rw [BitVec.toNat_ofNat] <;> omega
    rw [hsub]
    exact Int.lt_of_le_of_lt hle (by decide)
  · simp [hd, hr] at hp

theorem rtEffectivePrio_le (top : Option Task) (prio : ℤ) : rtEffectivePrio top prio ≤ prio := by
  cases top with
  | none => exact Int.le_refl _
  | some t =>
    simp only [rtEffectivePrio]
    split <;> omega

/-- `__setscheduler` leaves a consistent task behind when the priority is on the user scale. -/
theorem setscheduler_consistent {setparamDl : Task → SchedAttr → Task} {p : Task} {attr : SchedAttr}
    {top : Option Task} {b : Bool} (hk : attr.keepParams = false)
    (h : attr.schedPriority.toNat ≤ 99) : Consistent (setscheduler setparamDl top p attr b) := by
  intro hp
  obtain ⟨q, prio, he, hle, hq⟩ : ∃ q prio, setscheduler setparamDl top p attr b =
      { q with
        prio := prio
        schedClass := if dlPrio prio then .dl else if rtPrio prio then .rt else .fair } ∧
      prio ≤ normalPrio q ∧ q.rtPriority = attr.schedPriority := by
    unfold setscheduler
    rw [if_neg (by simp [hk])]
    cases b
    · exact ⟨setschedulerParams setparamDl p attr, _, rfl, Int.le_refl _, rfl⟩
    · exact ⟨setschedulerParams setparamDl p attr, _, rfl, rtEffectivePrio_le _ _, rfl⟩
  rw [he] at hp ⊢
  have hlt : prio < maxRtPrio := Int.lt_of_le_of_lt hle (normalPrio_lt hp (by rw [hq]; exact h))
  refine ⟨hlt, ?_⟩
  dsimp only
  split_ifs with hd hr
  · simp
  · simp
  · simp [rtPrio, hlt] at hr

/-- Whether a task has asked for a policy of the fair class other than `SCHED_NORMAL`, after a
request. -/
def asks (asked : Bool) : PolicyArg → Bool
  | .setparam => asked
  | .value bits => Policy.ofBits (bits &&& ~~~resetOnForkBit) = some .batch ||
      Policy.ofBits (bits &&& ~~~resetOnForkBit) = some .idle

/-- The tasks, with a record of those that have been forked or re-scheduled and of those that have
asked for `SCHED_BATCH` or `SCHED_IDLE`, themselves or through their parents. -/
structure Tasks (T : Type*) where
  task : T → Option Task
  converted : T → Bool
  asked : T → Bool

structure Settled (converted asked : Bool) (p : Task) : Prop where
  consistent : Consistent p
  policy : converted = true → p.policy ≠ .normal
  asked : p.policy = .batch ∨ p.policy = .idle → asked = true

namespace Settled

variable {converted asked on : Bool} {p q : Task}

theorem class_fair (h : Settled true asked p) (hc : p.schedClass = .fair) : asked = true := by
  have hn := h.policy rfl
  apply h.asked
  cases hp : p.policy with
  | normal => exact absurd hp hn
  | fifo => exact absurd hc (h.consistent (by simp [hp, rtPolicy])).2
  | rr => exact absurd hc (h.consistent (by simp [hp, rtPolicy])).2
  | batch => exact Or.inl rfl
  | idle => exact Or.inr rfl
  | deadline => exact absurd hc (h.consistent (by simp [hp, dlPolicy])).2

theorem fork (h : Settled converted asked q) (hk : KeepsPolicy q) (hf : schedFork on q = .ok p) :
    Settled true asked p := by
  have hnormal : p.policy ≠ .normal := by
    rw [Ne, schedFork_normal_iff hf, not_not]
    exact hk
  by_cases hq : q.policy = .batch ∨ q.policy = .idle
  · have hpol := schedFork_policy hq hf
    refine ⟨fun hp => ?_, fun _ => hnormal, fun _ => h.asked hq⟩
    rw [hpol] at hp
    rcases hq with hq | hq <;> simp [hq, rtPolicy, dlPolicy] at hp
  · obtain ⟨hpol, hprio, hclass⟩ := schedFork_fields (hk.resolve_right hq) hf
    refine ⟨fun hp => ?_, fun _ => hnormal, fun hp => ?_⟩
    · have hlt : p.prio < maxRtPrio := by
        rw [hprio]
        split
        case isTrue => decide
        case isFalse hn =>
          rw [hpol, if_neg hn] at hp
          exact (h.consistent hp).1
      exact ⟨hlt, by simp [hclass, rtPrio, hlt]⟩
    · rw [hpol] at hp
      split at hp
      case isTrue => simp at hp
      case isFalse => exact absurd hp hq

theorem setscheduler {setparamDl : Task → SchedAttr → Task} {k : Context} {policy : PolicyArg}
    {prio : BitVec 32} {check : Bool} (hdl : ∀ p attr, (setparamDl p attr).policy = p.policy)
    (h : Settled converted asked q) (hb : policy ≠ .value resetOnForkBit)
    (hs : schedSetscheduler setparamDl k q policy prio check = .ok p) :
    Settled (converted || policy ≠ .setparam) (asks asked policy) p := by
  have hcons : Consistent p := by
    obtain ⟨pol, reset, -, href, ⟨-, rfl⟩ | rfl⟩ := schedSetschedulerAttr_ok hs
    · exact h.consistent
    · exact setscheduler_consistent (toRequest_keepParams policy) (refusal_none href).1
  obtain ⟨reset, hreq⟩ := schedSetscheduler_policy hdl hs
  cases policy with
  | setparam =>
    have hpol : q.policy = p.policy := by
      simp only [requested, toRequest] at hreq
      exact congrArg Prod.fst (Option.some.inj hreq)
    refine ⟨hcons, fun hc => ?_, fun hp => ?_⟩
    · rw [← hpol]
      exact h.policy (by simpa using hc)
    · rw [← hpol] at hp
      exact h.asked hp
  | value bits =>
    have hne : bits ≠ resetOnForkBit := fun he => hb (by rw [he])
    refine ⟨hcons, fun _ => ?_, fun hp => ?_⟩
    · rw [Ne, schedSetscheduler_normal_iff hdl hs]
      exact hne
    · simp only [requested, toRequest_policy] at hreq
      obtain ⟨pol, hpol, he⟩ := Option.map_eq_some_iff.mp hreq
      obtain ⟨rfl, -⟩ := Prod.mk.inj he
      by_cases h0 : bits = 0
      · rw [if_pos h0] at hpol
        have hfifo : Policy.fifo = p.policy := Option.some.inj hpol
        simp [← hfifo] at hp
      · rw [if_neg h0] at hpol
        simpa [asks, hpol] using hp

end Settled

variable {T : Type*} [DecidableEq T]

/-- Forks of the tasks that satisfy `P` and requests that satisfy `Q`. -/
inductive ConversionStep (on : Bool) (setparamDl : Task → SchedAttr → Task) (P : Task → Prop)
    (Q : PolicyArg → Prop) (s : Tasks T) : Tasks T → Prop where

  | fork (parent child : T) {q p : Task} : s.task parent = some q → P q → s.task child = none →
      schedFork on q = .ok p →
      ConversionStep on setparamDl P Q s
        { task := Function.update s.task child (some p)
          converted := Function.update s.converted child true
          asked := Function.update s.asked child (s.asked parent) }

  | setscheduler (t : T) (k : Context) (policy : PolicyArg) (schedPriority : BitVec 32)
      (check : Bool) {q p : Task} : s.task t = some q → Q policy →
      schedSetscheduler setparamDl k q policy schedPriority check = .ok p →
      ConversionStep on setparamDl P Q s
        { task := Function.update s.task t (some p)
          converted := Function.update s.converted t (s.converted t || policy ≠ .setparam)
          asked := Function.update s.asked t (asks (s.asked t) policy) }

/-- The runs of both operations from consistent tasks, none of which has been converted yet. -/
def conversion (T : Type*) [DecidableEq T] (on : Bool) (setparamDl : Task → SchedAttr → Task)
    (P : Task → Prop) (Q : PolicyArg → Prop) : System (Tasks T) where
  init s := ∀ t p, s.task t = some p → Consistent p ∧ s.converted t = false ∧
    (s.asked t = true ↔ p.policy = .batch ∨ p.policy = .idle)
  step := ConversionStep on setparamDl P Q

variable {on : Bool} {setparamDl : Task → SchedAttr → Task} {s : Tasks T}

theorem conversion_settled (hdl : ∀ p attr, (setparamDl p attr).policy = p.policy)
    (h : (conversion T on setparamDl KeepsPolicy (· ≠ .value resetOnForkBit)).Reachable s) :
    ∀ t p, s.task t = some p → Settled (s.converted t) (s.asked t) p := by
  refine h.invariant
    (I := fun s => ∀ t p, s.task t = some p → Settled (s.converted t) (s.asked t) p) ?_ ?_
  · intro s hs t p hp
    obtain ⟨hc, hconv, hasked⟩ := hs t p hp
    exact ⟨hc, by simp [hconv], hasked.mpr⟩
  · rintro s s' hs hstep t p hp
    cases hstep with
    | @fork parent child q r hq hk hnone hf =>
      rcases eq_or_ne t child with rfl | ht
      · obtain rfl : r = p := by simpa using hp
        simpa using (hs parent q hq).fork hk hf
      · simpa [ht] using hs t p (by simpa [ht] using hp)
    | @setscheduler u k policy prio check q r hq hb hr =>
      rcases eq_or_ne t u with rfl | ht
      · obtain rfl : r = p := by simpa using hp
        simpa using (hs t q hq).setscheduler hdl hb hr
      · simpa [ht] using hs t p (by simpa [ht] using hp)

/-- `sched_fork` and `_sched_setscheduler` keep a task out of `SCHED_NORMAL` exactly when the one
does not revert the policy and the other is not asked for `SCHED_NORMAL` together with
`SCHED_RESET_ON_FORK`. Over a run of such calls a forked or re-scheduled task is in the fair class
only after a request for `SCHED_BATCH` or `SCHED_IDLE`. -/
theorem normal_excluded (on : Bool) (hdl : ∀ p attr, (setparamDl p attr).policy = p.policy) :
    (∀ q p, schedFork on q = .ok p → (p.policy ≠ .normal ↔ KeepsPolicy q)) ∧
    (∀ k q policy prio check p, policy ≠ .setparam →
      schedSetscheduler setparamDl k q policy prio check = .ok p →
      (p.policy ≠ .normal ↔ policy ≠ .value resetOnForkBit)) ∧
    ∀ s, (conversion T on setparamDl KeepsPolicy (· ≠ .value resetOnForkBit)).Reachable s →
      ∀ t p, s.task t = some p → s.converted t = true →
        p.policy ≠ .normal ∧ (p.schedClass = .fair → s.asked t = true) := by
  refine ⟨fun q p h => ?_, fun k q policy prio check p hne h => ?_, fun s h t p hp hc => ?_⟩
  · rw [Ne, schedFork_normal_iff h, not_not]
  · cases policy with
    | setparam => exact absurd rfl hne
    | value bits => simp [schedSetscheduler_normal_iff hdl h]
  · have hs := conversion_settled hdl h t p hp
    rw [hc] at hs
    exact ⟨hs.policy rfl, hs.class_fair⟩

def granted : Context where
  mm := true
  capable := true
  canNice _ := true
  rlimRtprio := 99
  checkSameOwner := true
  checkparamDl := true
  securityTaskSetscheduler := 0
  uclampValidate := 0
  stop := false
  dlParamChanged := false
  noRtRuntime := false
  noDlBandwidth := false
  schedDlOverflow := false
  topTask := none

/-- A `SCHED_NORMAL` task asks for its own policy and becomes a `SCHED_FIFO` task. -/
theorem normal_excluded_request : ∃ s : Tasks ℕ,
    (conversion ℕ true (fun p _ => p) KeepsPolicy (· ≠ .value resetOnForkBit)).Reachable s ∧
    ∃ p, s.task 0 = some p ∧ p.policy ≠ .normal ∧ p.schedClass ≠ .fair := by
  have h : (conversion ℕ true (fun p _ => p) KeepsPolicy (· ≠ .value resetOnForkBit)).Reachable
      ⟨oneTask, fun _ => false, fun _ => false⟩ := by
    refine .init ?_
    rintro (_ | t) p hp
    · cases hp
      exact ⟨fun h => absurd h (by decide), rfl, by simp⟩
    · cases hp
  have h := h.tail (.setscheduler 0 granted (.value 0) 0 true rfl (by decide) rfl)
  have hdl : ∀ (p : Task) (attr : SchedAttr), (Function.const SchedAttr p attr).policy = p.policy :=
    fun _ _ => rfl
  have hall := (normal_excluded (T := ℕ) true hdl).2.2 _ h 0 _ rfl rfl
  exact ⟨_, h, _, rfl, hall.1, fun hc => absurd (hall.2 hc) (by decide)⟩

/-- A task that is reset on fork has a `SCHED_NORMAL` child, and a request that combines this policy
with `SCHED_RESET_ON_FORK` is not converted. -/
theorem normal_restored :
    (∃ p, schedFork true ⟨1, taskRunning, 49, 120, 49, 50, .fifo, .rt, true, ⟨0, 0, 0, 0⟩, 0⟩ = .ok p ∧
      p.policy = .normal ∧ p.schedClass = .fair) ∧
    ∃ p, schedSetscheduler (fun p _ => p) granted
      ⟨1, taskRunning, 49, 120, 49, 50, .fifo, .rt, false, ⟨0, 0, 0, 0⟩, 0⟩
      (.value resetOnForkBit) 0 true = .ok p ∧ p.policy = .normal ∧ p.schedClass = .fair :=
  ⟨⟨_, rfl, rfl, rfl⟩, _, rfl, rfl, rfl⟩

end Fifo

end OperatingSystem.Kernel
