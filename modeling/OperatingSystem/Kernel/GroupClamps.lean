import OperatingSystem.Kernel.Uclamp
import OperatingSystem.Kernel.WalkTree

/-! # Clamps of task groups

A task group asks for clamps, and its effective clamps are capped by those of its
parent. After a change the effective clamps are propagated down the tree; the
iteration skips the groups below one whose effective clamps stay. The changes hold
a lock, but a new group takes over the clamps of its parent without it.
-/

namespace OperatingSystem.Kernel

section Walk

variable {G : Type*} {B : ℕ} [NeZero B]

/-- The effective clamps that a group should have below the group `up`. -/
def effValue (req eff : G → ClampId → UclampSe B) (up : Option G) (tg : G) : ClampId → ℕ :=
  let cap (id : ClampId) : ℕ :=
    let v := (req tg id).value
    match up with
    | some p => if (eff p id).value < v then (eff p id).value else v
    | none => v
  fun
    | .min => Nat.min (cap .min) (cap .max)
    | .max => cap .max

def setEffValue (ucSe : UclampSe B) (v : ℕ) : UclampSe B :=
  if v = ucSe.value then ucSe
  else { ucSe with value := v % 2 ^ 11, bucketId := uclampBucketId v }

/-- The clamps that change, in the order of `for_each_clamp_id`. -/
def changedClamps (old : ClampId → UclampSe B) (v : ClampId → ℕ) : List ClampId :=
  [.min, .max].filter fun id => v id ≠ (old id).value

variable [DecidableEq G]

/-- The loop of `cpu_util_update_eff`, with the calls of `uclamp_update_active_tasks`. The groups
below one that keeps its clamps are skipped. -/
def cpuUtilUpdateEff (req : G → ClampId → UclampSe B) (up : Option G) :
    Forest G → (G → ClampId → UclampSe B) →
      (G → ClampId → UclampSe B) × List (G × List ClampId)
  | .nil, eff => (eff, [])
  | .cons tg children siblings, eff =>
    let v := effValue req eff up tg
    let clamps := changedClamps (eff tg) v
    let eff := Function.update eff tg fun id => setEffValue (eff tg id) (v id)
    if clamps = [] then cpuUtilUpdateEff req up siblings eff
    else
      let (eff, calls) := cpuUtilUpdateEff req (some tg) children eff
      let (eff, calls') := cpuUtilUpdateEff req up siblings eff
      (eff, (tg, clamps) :: (calls ++ calls'))

end Walk

/-- How far `cpu_cgroup_css_online` has come for a group: it has put the group below its parent, or
has also computed its effective clamps, or has stored them. -/
inductive Stage where
  | linked
  | computed (v : ClampId → ℕ)
  | live

def Stage.isLive : Stage → Bool
  | .live => true
  | _ => false

theorem Stage.eq_live {s : Stage} (h : s.isLive = true) : s = .live := by
  cases s with
  | linked => contradiction
  | computed v => contradiction
  | live => rfl

/-- `uclamp_req` and `uclamp` of all groups. -/
structure GroupClamps (G : Type*) (B : ℕ) where
  groups : TaskGroups G
  req : G → ClampId → UclampSe B
  eff : G → ClampId → UclampSe B
  stage : G → Stage

/-- `capacity_from_percent` behind the parser, for a number of hundredths of a percent or `max`. -/
def capacityFromPercent (percent : Option (BitVec 64)) : Option ℕ :=
  match percent with
  | none => some schedCapacityScale
  | some p =>
    if 10000 < p.toNat then none else some ((p.toNat * 2 ^ 10 + 10000 / 2) / 10000)

inductive GroupClampAction (G : Type*) (B : ℕ) where
  | online (tg parent : G) (eff : ClampId → UclampSe B)
  | computeEff (tg : G)
  | storeEff (tg : G)
  | offline (tg : G)
  | write (tg : G) (id : ClampId) (percent : Option (BitVec 64))
  | sysctl (utilMin utilMax : ℕ)

namespace GroupClamps

variable {G : Type*} {B : ℕ} [NeZero B] [DecidableEq G]

def updateEff (m : GroupClamps G B) (tg : G) : GroupClamps G B × List (G × List ClampId) :=
  match m.groups.place tg with
  | none => (m, [])
  | some p =>
    let (eff, calls) := cpuUtilUpdateEff m.req p.parent (.subtree tg p) m.eff
    ({ m with eff }, calls)

/-- `cpu_uclamp_write`, up to the percentage that it keeps for its output. -/
def cpuUclampWrite (m : GroupClamps G B) (tg : G) (id : ClampId) (percent : Option (BitVec 64)) :
    Option (GroupClamps G B × List (G × List ClampId)) :=
  (capacityFromPercent percent).map fun util =>
    let m :=
      if (m.req tg id).value ≠ util then
        { m with
          req := Function.update m.req tg
            (Function.update (m.req tg) id (uclampSeSet (m.req tg id) util false)) }
      else m
    m.updateEff tg

def uclampUpdateRootTg (m : GroupClamps G B) (utilMin utilMax : ℕ) :
    GroupClamps G B × List (G × List ClampId) :=
  let root := m.groups.rootTaskGroup
  let req : ClampId → UclampSe B := fun
    | .min => uclampSeSet (m.req root .min) utilMin false
    | .max => uclampSeSet (m.req root .max) utilMax false
  ({ m with req := Function.update m.req root req }).updateEff root

/-- `alloc_uclamp_sched_group` and `sched_online_group`. The parent's clamps may have changed since
they were copied to the new group. -/
def schedOnlineGroup (m : GroupClamps G B) (tg parent : G) (eff : ClampId → UclampSe B) :
    Option (GroupClamps G B) :=
  (m.groups.schedOnlineGroup tg parent).map fun groups =>
    { groups
      req := Function.update m.req tg fun id => uclampSeSet (m.req tg id) (uclampNone id) false
      eff := Function.update m.eff tg eff
      stage := Function.update m.stage tg .linked }

/-- `cpu_util_update_eff` for a new group, up to the first store. -/
def computeEff (m : GroupClamps G B) (tg : G) : Option (GroupClamps G B) :=
  match m.stage tg with
  | .linked =>
    let up := (m.groups.place tg).bind Place.parent
    some { m with
      stage := Function.update m.stage tg (.computed (effValue m.req m.eff up tg)) }
  | _ => none

/-- The rest of `cpu_util_update_eff` for a new group, which has no groups below it. -/
def storeEff (m : GroupClamps G B) (tg : G) : Option (GroupClamps G B × List (G × List ClampId)) :=
  match m.stage tg with
  | .computed v =>
    let clamps := changedClamps (m.eff tg) v
    some ({ m with
      eff := Function.update m.eff tg fun id => setEffValue (m.eff tg id) (v id)
      stage := Function.update m.stage tg .live }, if clamps = [] then [] else [(tg, clamps)])
  | _ => none

structure Booted (m : GroupClamps G B) : Prop where
  children : m.groups.children = .nil
  live : ∀ g, m.stage g = .live
  req : ∀ id, (m.req m.groups.rootTaskGroup id).value = schedCapacityScale
  eff : ∀ id, m.eff m.groups.rootTaskGroup id = m.req m.groups.rootTaskGroup id
  fits : ∀ id, (m.eff m.groups.rootTaskGroup id).Fits

/-- What changes the tree or the requests. A group has neither files nor groups below it before it
is live, and the root has no files. -/
def act (m : GroupClamps G B) :
    GroupClampAction G B → Option (GroupClamps G B × List (G × List ClampId))
  | .online tg parent eff =>
    if (eff .min).Fits ∧ (eff .max).Fits ∧ (m.stage parent).isLive then
      (m.schedOnlineGroup tg parent eff).map fun m => (m, [])
    else none
  | .computeEff tg =>
    if tg ∈ m.groups.tree.nodes then (m.computeEff tg).map fun m => (m, []) else none
  | .storeEff tg => if tg ∈ m.groups.tree.nodes then m.storeEff tg else none
  | .offline tg =>
    if (m.stage tg).isLive then some ({ m with groups := m.groups.schedOfflineGroup tg }, [])
    else none
  | .write tg id percent =>
    if tg ∈ m.groups.tree.nodes ∧ tg ≠ m.groups.rootTaskGroup ∧ (m.stage tg).isLive then
      m.cpuUclampWrite tg id percent
    else none
  | .sysctl utilMin utilMax =>
    if utilMin ≤ utilMax ∧ utilMax ≤ schedCapacityScale then
      some (m.uclampUpdateRootTg utilMin utilMax)
    else none

/-- No write falls between the steps of a creation. -/
def Quiet (m : GroupClamps G B) : GroupClampAction G B → Prop
  | .write _ _ _ | .sysctl _ _ => ∀ g ∈ m.groups.tree.nodes, (m.stage g).isLive = true
  | _ => True

end GroupClamps

/-- The runs from the boot on. -/
def groupClamps (G : Type*) (B : ℕ) [NeZero B] [DecidableEq G] : System (GroupClamps G B) where
  init := GroupClamps.Booted
  step m m' := ∃ a calls, m.act a = some (m', calls)

/-- The runs in which no write overlaps a creation. -/
def quietClamps (G : Type*) (B : ℕ) [NeZero B] [DecidableEq G] : System (GroupClamps G B) where
  init := GroupClamps.Booted
  step m m' := ∃ a calls, m.Quiet a ∧ m.act a = some (m', calls)

end OperatingSystem.Kernel
