import OperatingSystem.Kernel.WalkTree
import OperatingSystem.Transition

/-! # Quotas of task groups

A group may run for its quota in each period. Before a new quota is stored, a walk
over all groups compares the share of every group with the share of the nearest
limited group above it. The walk notes the inherited share in the groups on its
way down, also when it then refuses the new quota.
-/

namespace OperatingSystem.Kernel

def runtimeInf : BitVec 64 := BitVec.allOnes 64

def bwShift : ℕ := 20

def bwUnit : BitVec 64 := 1 <<< bwShift

/-- `MAX_BW`, in the bits that the shift leaves. -/
def maxBw : BitVec 64 := (1 <<< (64 - bwShift)) - 1

def nsecPerUsec : BitVec 64 := 1000

/-- `max_cfs_quota_period`, one second -/
def maxCfsQuotaPeriod : BitVec 64 := 1000000000

/-- `min_cfs_quota_period`, one millisecond -/
def minCfsQuotaPeriod : BitVec 64 := 1000000

def maxCfsRuntime : BitVec 64 := maxBw * nsecPerUsec

def einval : ℤ := 22

def toRatio (period runtime : BitVec 64) : BitVec 64 :=
  if runtime = runtimeInf then bwUnit
  else if period = 0 then 0
  else (runtime <<< bwShift) / period

def BandwidthInRange (period quota : BitVec 64) : Prop :=
  ¬ (quota < minCfsQuotaPeriod ∨ period < minCfsQuotaPeriod) ∧ ¬ maxCfsQuotaPeriod < period ∧
    ¬ (quota ≠ runtimeInf ∧ maxCfsRuntime < quota)

instance {period quota : BitVec 64} : Decidable (BandwidthInRange period quota) :=
  inferInstanceAs (Decidable (_ ∧ _ ∧ _))

/-- `struct cfs_bandwidth`, whose period and quota have passed the range checks. -/
structure CfsBandwidth where
  period : BitVec 64
  quota : BitVec 64
  hierarchicalQuota : BitVec 64
  inRange : BandwidthInRange period quota

/-- `struct cfs_schedulable_data`, in microseconds -/
structure CfsSchedulableData (G : Type*) where
  tg : G
  period : BitVec 64
  quota : BitVec 64

section Group

variable {G : Type*} [DecidableEq G]

def tgGetCfsQuota (b : CfsBandwidth) : BitVec 64 :=
  if b.quota = runtimeInf then -1 else b.quota / nsecPerUsec

def tgGetCfsPeriod (b : CfsBandwidth) : BitVec 64 := b.period / nsecPerUsec

def normalizeCfsQuota (bw : G → CfsBandwidth) (tg : G) (d : CfsSchedulableData G) : BitVec 64 :=
  let (period, quota) :=
    if tg = d.tg then (d.period, d.quota) else (tgGetCfsPeriod (bw tg), tgGetCfsQuota (bw tg))
  if quota = runtimeInf ∨ quota = -1 then runtimeInf else toRatio period quota

def setHierarchicalQuota (bw : G → CfsBandwidth) (tg : G) (quota : BitVec 64) :
    G → CfsBandwidth :=
  Function.update bw tg { bw tg with hierarchicalQuota := quota }

/-- `tg_cfs_schedulable_down`; `onDfl` is `cgroup_subsys_on_dfl`, and `quota` and `parent_quota`
are compared as signed numbers. -/
def tgCfsSchedulableDown (onDfl : Bool) (parent : G → Option G) (d : CfsSchedulableData G) (tg : G)
    (bw : G → CfsBandwidth) : ℤ × (G → CfsBandwidth) :=
  match parent tg with
  | none => (0, setHierarchicalQuota bw tg runtimeInf)
  | some p =>
    let quota := normalizeCfsQuota bw tg d
    let parentQuota := (bw p).hierarchicalQuota
    if onDfl then
      (0, setHierarchicalQuota bw tg (if quota.slt parentQuota then quota else parentQuota))
    else if quota = runtimeInf then (0, setHierarchicalQuota bw tg parentQuota)
    else if parentQuota ≠ runtimeInf ∧ parentQuota.slt quota then (-einval, bw)
    else (0, setHierarchicalQuota bw tg quota)

def tgNop {σ : Type*} (_ : G) (s : σ) : ℤ × σ := (0, s)

def cfsSchedulable (onDfl : Bool) (t : TaskGroups G) (bw : G → CfsBandwidth) (tg : G)
    (period quota : BitVec 64) : Option (ℤ × (G → CfsBandwidth)) :=
  let data : CfsSchedulableData G :=
    if quota ≠ runtimeInf then ⟨tg, period / nsecPerUsec, quota / nsecPerUsec⟩
    else ⟨tg, period, quota⟩
  t.walkTgTree (tgCfsSchedulableDown onDfl (fun g => (t.place g).bind Place.parent) data) tgNop bw

/-- `tg_set_cfs_bandwidth`, up to the runtime that it hands to the runqueues. -/
def tgSetCfsBandwidth (onDfl : Bool) (t : TaskGroups G) (bw : G → CfsBandwidth) (tg : G)
    (period quota : BitVec 64) : Option (ℤ × (G → CfsBandwidth)) :=
  if tg = t.rootTaskGroup then some (-einval, bw)
  else if h : BandwidthInRange period quota then
    (cfsSchedulable onDfl t bw tg period quota).map fun (ret, bw) =>
      if ret ≠ 0 then (ret, bw)
      else (0, Function.update bw tg ⟨period, quota, (bw tg).hierarchicalQuota, h⟩)
  else some (-einval, bw)

def tgSetCfsQuota (onDfl : Bool) (t : TaskGroups G) (bw : G → CfsBandwidth) (tg : G)
    (cfsQuotaUs : BitVec 64) : Option (ℤ × (G → CfsBandwidth)) :=
  let period := (bw tg).period
  if cfsQuotaUs.slt 0 then tgSetCfsBandwidth onDfl t bw tg period runtimeInf
  else if cfsQuotaUs ≤ BitVec.allOnes 64 / nsecPerUsec then
    tgSetCfsBandwidth onDfl t bw tg period (cfsQuotaUs * nsecPerUsec)
  else some (-einval, bw)

def tgSetCfsPeriod (onDfl : Bool) (t : TaskGroups G) (bw : G → CfsBandwidth) (tg : G)
    (cfsPeriodUs : BitVec 64) : Option (ℤ × (G → CfsBandwidth)) :=
  if BitVec.allOnes 64 / nsecPerUsec < cfsPeriodUs then some (-einval, bw)
  else tgSetCfsBandwidth onDfl t bw tg (cfsPeriodUs * nsecPerUsec) (bw tg).quota

end Group

structure Bandwidths (G : Type*) [DecidableEq G] where
  groups : TaskGroups G
  bw : G → CfsBandwidth

/-- Groups come without a quota and go, and users write quotas and periods. -/
inductive BandwidthAction (G : Type*) where
  | online (tg parent : G) (b : CfsBandwidth)
  | offline (tg : G)
  | cfsQuotaUs (tg : G) (us : BitVec 64)
  | cfsPeriodUs (tg : G) (us : BitVec 64)
  | max (tg : G) (period quota : BitVec 64)

/-- One action, also one that the kernel refuses. -/
def Bandwidths.act {G : Type*} [DecidableEq G] (onDfl : Bool) (m : Bandwidths G) :
    BandwidthAction G → Option (Bandwidths G)
  | .online tg parent b =>
    if b.quota = runtimeInf then
      (m.groups.schedOnlineGroup tg parent).map fun groups =>
        { groups, bw := Function.update m.bw tg b }
    else none
  | .offline tg => some { m with groups := m.groups.schedOfflineGroup tg }
  | .cfsQuotaUs tg us =>
    (tgSetCfsQuota onDfl m.groups m.bw tg us).map fun r => { m with bw := r.2 }
  | .cfsPeriodUs tg us =>
    (tgSetCfsPeriod onDfl m.groups m.bw tg us).map fun r => { m with bw := r.2 }
  | .max tg period quota =>
    (tgSetCfsBandwidth onDfl m.groups m.bw tg period quota).map fun r => { m with bw := r.2 }

def bandwidths (G : Type*) [DecidableEq G] (onDfl : Bool) : System (Bandwidths G) where
  init m := m.groups.children = .nil
  step m m' := ∃ a, m.act onDfl a = some m'

/-- A group without a quota, with a period of 100 ms. -/
def CfsBandwidth.unlimited : CfsBandwidth where
  period := 100000000
  quota := runtimeInf
  hierarchicalQuota := runtimeInf
  inRange := by decide

def rootAlone : Bandwidths (Option Bool) where
  groups := .ofRoot none
  bw _ := .unlimited

end OperatingSystem.Kernel
