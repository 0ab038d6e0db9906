import Mathlib.Algebra.Order.Ring.Nat
import Mathlib.Data.Fin.Basic
import Mathlib.Data.List.FinRange
import OperatingSystem.Tally
import OperatingSystem.Transition

/-! # Utilization clamps

A task asks for a minimum and a maximum utilization. While it is enqueued its
effective clamps are counted in buckets of its runqueue, which keeps the largest
clamp of its tasks. Requests, task groups and system defaults change the effective
clamps; a change reaches an enqueued task by taking it out of its bucket and
putting it into the new one.
-/

namespace OperatingSystem.Kernel

def schedCapacityScale : ℕ := 1024

inductive ClampId where
  | min
  | max
  deriving DecidableEq, Repr

/-- `UCLAMP_BUCKET_DELTA` for `B` buckets, a rounded division. -/
def uclampBucketDelta (B : ℕ) : ℕ := (schedCapacityScale + B / 2) / B

section Buckets

variable {B : ℕ} [NeZero B]

def uclampBucketId (clampValue : ℕ) : Fin B :=
  ⟨Nat.min (clampValue / uclampBucketDelta B) (B - 1),
    Nat.lt_of_le_of_lt (Nat.min_le_right _ _) (Nat.sub_one_lt (NeZero.ne B))⟩

theorem uclampBucketId_mono {v w : ℕ} (h : v ≤ w) :
    (uclampBucketId v : Fin B) ≤ uclampBucketId w := by
  have hdiv := Nat.div_le_div_right (c := uclampBucketDelta B) h
  simp only [uclampBucketId, Fin.mk_le_mk]
  exact le_min ((Nat.min_le_left _ _).trans hdiv) (Nat.min_le_right _ _)

end Buckets

def uclampNone : ClampId → ℕ
  | .min => 0
  | .max => schedCapacityScale

structure UclampSe (B : ℕ) where
  value : ℕ
  bucketId : Fin B
  active : Bool
  userDefined : Bool
  deriving DecidableEq

/-- `uclamp_se_set`, with the 11 bits of the field `value`. -/
def uclampSeSet {B : ℕ} [NeZero B] (ucSe : UclampSe B) (value : ℕ) (userDefined : Bool) :
    UclampSe B :=
  { ucSe with value := value % 2 ^ 11, bucketId := uclampBucketId value, userDefined }

structure UclampBucket where
  value : ℕ
  tasks : ℕ
  deriving DecidableEq, Repr

structure UclampRq (B : ℕ) where
  value : ℕ
  bucket : Fin B → UclampBucket

/-- The clamps of a runqueue; `idle` is the flag `UCLAMP_FLAG_IDLE`. -/
structure ClampRq (B : ℕ) where
  uclamp : ClampId → UclampRq B
  idle : Bool

section Rq

variable {B : ℕ}

def initUclampRq : ClampRq B where
  uclamp id := { value := uclampNone id, bucket := fun _ => ⟨0, 0⟩ }
  idle := false

def ClampRq.setUclamp (rq : ClampRq B) (id : ClampId) (ucRq : UclampRq B) : ClampRq B :=
  { rq with uclamp := Function.update rq.uclamp id ucRq }

def uclampIdleValue (rq : ClampRq B) (id : ClampId) (clampValue : ℕ) : ClampRq B × ℕ :=
  match id with
  | .max => ({ rq with idle := true }, clampValue)
  | .min => (rq, uclampNone .min)

/-- `uclamp_rq_max_value`: the value of the topmost bucket with tasks in it. -/
def uclampRqMaxValue (rq : ClampRq B) (id : ClampId) (clampValue : ℕ) : ClampRq B × ℕ :=
  let bucket := (rq.uclamp id).bucket
  match (List.finRange B).reverse.find? fun b => (bucket b).tasks ≠ 0 with
  | some b => (rq, (bucket b).value)
  | none => uclampIdleValue rq id clampValue

/-- `uclamp_rq_inc_id` on a runqueue, for the effective clamp of the task. -/
def uclampRqIncId (rq : ClampRq B) (ucSe : UclampSe B) (id : ClampId) : ClampRq B :=
  let ucRq := rq.uclamp id
  let bucket := ucRq.bucket ucSe.bucketId
  let tasks := bucket.tasks + 1
  -- `uclamp_idle_reset`
  let value := if rq.idle then ucSe.value else ucRq.value
  let bucket : UclampBucket :=
    ⟨if tasks = 1 ∨ bucket.value < ucSe.value then ucSe.value else bucket.value, tasks⟩
  rq.setUclamp id
    { value := if value < ucSe.value then ucSe.value else value
      bucket := Function.update ucRq.bucket ucSe.bucketId bucket }

/-- `uclamp_rq_dec_id` on a runqueue, for the clamp that the task is counted with. -/
def uclampRqDecId (rq : ClampRq B) (ucSe : UclampSe B) (id : ClampId) : ClampRq B :=
  if ucSe.active then
    let ucRq := rq.uclamp id
    let bucket := ucRq.bucket ucSe.bucketId
    let tasks := if bucket.tasks = 0 then 0 else bucket.tasks - 1
    let ucRq := { ucRq with
      bucket := Function.update ucRq.bucket ucSe.bucketId { bucket with tasks } }
    let rq := rq.setUclamp id ucRq
    if tasks ≠ 0 then rq
    else if ucRq.value ≤ bucket.value then
      let (rq, value) := uclampRqMaxValue rq id ucSe.value
      rq.setUclamp id { ucRq with value }
    else rq
  else rq

end Rq

/-- The fields of a task that decide its clamps. `group` is `none` in the root task group and in
autogroups, `rt` is `rt_task(p)`, `uclampEnabled` belongs to its class. -/
structure ClampTask (C G : Type*) (B : ℕ) where
  uclampReq : ClampId → UclampSe B
  uclamp : ClampId → UclampSe B
  uclampEnabled : Bool
  rt : Bool
  group : Option G
  cpu : C
  onRq : Bool

/-- The variables that `sysctl_sched_uclamp_handler` writes. -/
structure ClampSysctl where
  utilMin : ℕ
  utilMax : ℕ
  utilMinRtDefault : ℕ
  deriving DecidableEq, Repr

structure Clamps (C T G : Type*) (B : ℕ) where
  task : T → ClampTask C G B
  tasks : Finset T
  rq : C → ClampRq B
  group : G → ClampId → UclampSe B
  uclampDefault : ClampId → UclampSe B
  sysctl : ClampSysctl
  schedUclampUsed : Bool

/-- The utilizations of a `sched_attr`, present when their flag is set. -/
structure ClampAttr where
  utilMin : Option (BitVec 32)
  utilMax : Option (BitVec 32)
  deriving DecidableEq, Repr

/-- The test of one utilization in `uclamp_validate`, whose `int` sum wraps. The minimum and the
maximum are compared there too, but with a request that may have changed before it is stored. -/
def utilInRange (util : Option (BitVec 32)) : Bool :=
  match util with
  | some v => !decide (schedCapacityScale + 1 < (v + 1).toInt)
  | none => true

section Request

variable {C G : Type*} {B : ℕ} [NeZero B]

def uclampReset (attr : ClampAttr) (id : ClampId) (ucSe : UclampSe B) : Bool :=
  if attr.utilMin.isNone && attr.utilMax.isNone && !ucSe.userDefined then true
  else
    match id with
    | .min => attr.utilMin = some (-1)
    | .max => attr.utilMax = some (-1)

/-- Reset a request to its default, which for realtime tasks is a system-wide minimum. -/
def resetRequest (utilMinRtDefault : ℕ) (attr : ClampAttr) (id : ClampId) (p : ClampTask C G B) :
    ClampTask C G B :=
  if uclampReset attr id (p.uclampReq id) then
    let value := if p.rt && id = .min then utilMinRtDefault else uclampNone id
    { p with uclampReq :=
        Function.update p.uclampReq id (uclampSeSet (p.uclampReq id) value false) }
  else p

def setRequest (id : ClampId) (util : Option (BitVec 32)) (p : ClampTask C G B) :
    ClampTask C G B :=
  match util with
  | some v =>
    if v = -1 then p
    else { p with uclampReq :=
        Function.update p.uclampReq id (uclampSeSet (p.uclampReq id) v.toNat true) }
  | none => p

/-- `__setscheduler_uclamp` -/
def setschedulerUclamp (utilMinRtDefault : ℕ) (attr : ClampAttr) (p : ClampTask C G B) :
    ClampTask C G B :=
  let p := resetRequest utilMinRtDefault attr .max (resetRequest utilMinRtDefault attr .min p)
  setRequest .max attr.utilMax (setRequest .min attr.utilMin p)

def uclampFork (schedResetOnFork : Bool) (p : ClampTask C G B) : ClampTask C G B :=
  let p := { p with uclamp := fun id => { p.uclamp id with active := false } }
  if schedResetOnFork then
    { p with uclampReq := fun id => uclampSeSet (p.uclampReq id) (uclampNone id) false }
  else p

/-- `__uclamp_update_util_min_rt_default` on a realtime task. -/
def uclampUpdateUtilMinRtDefault (utilMinRtDefault : ℕ) (p : ClampTask C G B) :
    ClampTask C G B :=
  if p.rt && !(p.uclampReq .min).userDefined then
    { p with uclampReq :=
        Function.update p.uclampReq .min (uclampSeSet (p.uclampReq .min) utilMinRtDefault false) }
  else p

end Request

namespace Clamps

variable {C T G : Type*} {B : ℕ}

def uclampTgRestrict (m : Clamps C T G B) (p : T) (id : ClampId) : UclampSe B :=
  let ucReq := (m.task p).uclampReq id
  match (m.task p).group with
  | none => ucReq
  | some g =>
    let ucMax := m.group g id
    if ucMax.value < ucReq.value || !ucReq.userDefined then ucMax else ucReq

def uclampEffGet (m : Clamps C T G B) (p : T) (id : ClampId) : UclampSe B :=
  let ucReq := m.uclampTgRestrict p id
  let ucMax := m.uclampDefault id
  if ucMax.value < ucReq.value then ucMax else ucReq

variable [DecidableEq C] [DecidableEq T]

def setTask (m : Clamps C T G B) (p : T) (t : ClampTask C G B) : Clamps C T G B :=
  { m with task := Function.update m.task p t }

def setRq (m : Clamps C T G B) (c : C) (rq : ClampRq B) : Clamps C T G B :=
  { m with rq := Function.update m.rq c rq }

def setClamp (m : Clamps C T G B) (p : T) (id : ClampId) (ucSe : UclampSe B) : Clamps C T G B :=
  m.setTask p { m.task p with uclamp := Function.update (m.task p).uclamp id ucSe }

/-- `uclamp_rq_inc_id` -/
def rqIncId (m : Clamps C T G B) (p : T) (id : ClampId) : Clamps C T G B :=
  let ucSe := { m.uclampEffGet p id with active := true }
  let c := (m.task p).cpu
  (m.setClamp p id ucSe).setRq c (uclampRqIncId (m.rq c) ucSe id)

/-- `uclamp_rq_dec_id` -/
def rqDecId (m : Clamps C T G B) (p : T) (id : ClampId) : Clamps C T G B :=
  let ucSe := (m.task p).uclamp id
  let c := (m.task p).cpu
  (m.setClamp p id { ucSe with active := false }).setRq c (uclampRqDecId (m.rq c) ucSe id)

def uclampRqInc (m : Clamps C T G B) (p : T) : Clamps C T G B :=
  if m.schedUclampUsed && (m.task p).uclampEnabled then
    let m := (m.rqIncId p .min).rqIncId p .max
    let c := (m.task p).cpu
    m.setRq c { m.rq c with idle := false }
  else m

def uclampRqDec (m : Clamps C T G B) (p : T) : Clamps C T G B :=
  if m.schedUclampUsed && (m.task p).uclampEnabled then (m.rqDecId p .min).rqDecId p .max else m

def setOnRq (m : Clamps C T G B) (p : T) (onRq : Bool) : Clamps C T G B :=
  m.setTask p { m.task p with onRq }

def addTask (m : Clamps C T G B) (p : T) (t : ClampTask C G B) : Clamps C T G B :=
  { m with task := Function.update m.task p t, tasks := insert p m.tasks }

/-- The clamps in `enqueue_task` and `activate_task`. -/
def enqueueTask (m : Clamps C T G B) (p : T) : Clamps C T G B := (m.uclampRqInc p).setOnRq p true

/-- The clamps in `dequeue_task` and `deactivate_task`. -/
def dequeueTask (m : Clamps C T G B) (p : T) : Clamps C T G B := (m.setOnRq p false).uclampRqDec p

def uclampUpdateActive (m : Clamps C T G B) (p : T) (id : ClampId) : Clamps C T G B :=
  if ((m.task p).uclamp id).active then (m.rqDecId p id).rqIncId p id else m

end Clamps

/-- The variable that a write to a `sched_util_clamp` file names. -/
inductive ClampKnob where
  | utilMin
  | utilMax
  | utilMinRtDefault
  deriving DecidableEq, Repr

def ClampKnob.write (s : ClampSysctl) (value : ℕ) : ClampKnob → ClampSysctl
  | .utilMin => { s with utilMin := value }
  | .utilMax => { s with utilMax := value }
  | .utilMinRtDefault => { s with utilMinRtDefault := value }

/-- `sysctl_sched_uclamp_handler` on a write, up to the updates of groups and tasks. -/
def Clamps.sysctlUclampHandler {C T G : Type*} {B : ℕ} [NeZero B] (m : Clamps C T G B)
    (knob : ClampKnob) (value : ℕ) : Clamps C T G B :=
  let old := m.sysctl
  let new := knob.write old value
  if new.utilMax < new.utilMin || schedCapacityScale < new.utilMax ||
      schedCapacityScale < new.utilMinRtDefault then m
  else
    let set (id : ClampId) (value : ℕ) (d : ClampId → UclampSe B) : ClampId → UclampSe B :=
      Function.update d id (uclampSeSet (d id) value false)
    let d := if old.utilMin ≠ new.utilMin then set .min new.utilMin m.uclampDefault
      else m.uclampDefault
    { m with
      sysctl := new
      uclampDefault := if old.utilMax ≠ new.utilMax then set .max new.utilMax d else d
      schedUclampUsed := m.schedUclampUsed || (old.utilMin ≠ new.utilMin ||
        old.utilMax ≠ new.utilMax || old.utilMinRtDefault ≠ new.utilMinRtDefault) }

/-- What the kernel does to the clamps while it holds a lock. -/
inductive ClampAction (C T G : Type*) where
  | enqueue (p : T)
  | dequeue (p : T)
  | migrate (p : T) (c : C)
  | setClass (p : T) (rt uclampEnabled : Bool)
  | setattr (p : T) (attr : ClampAttr)
  | fork (parent child : T) (c : C) (schedResetOnFork : Bool)
  | moveGroup (p : T) (g : Option G)
  | newGroup (g parent : G)
  | groupClamp (g : G) (id : ClampId) (value : ℕ)
  | sysctl (knob : ClampKnob) (value : ℕ)
  | syncRtDefault (p : T)
  | enable
  | updateActive (p : T) (id : ClampId)

namespace Clamps

variable {C T G : Type*} {B : ℕ} [NeZero B] [DecidableEq C] [DecidableEq T] [DecidableEq G]

/-- One action, where the kernel allows it: a task changes its CPU and its class only while it is
off its runqueue. -/
def act (m : Clamps C T G B) : ClampAction C T G → Option (Clamps C T G B)
  | .enqueue p => if p ∈ m.tasks ∧ !(m.task p).onRq then some (m.enqueueTask p) else none
  | .dequeue p => if p ∈ m.tasks ∧ (m.task p).onRq then some (m.dequeueTask p) else none
  | .migrate p c =>
    if p ∈ m.tasks ∧ !(m.task p).onRq then some (m.setTask p { m.task p with cpu := c }) else none
  | .setClass p rt uclampEnabled =>
    if p ∈ m.tasks ∧ !(m.task p).onRq then
      some (m.setTask p { m.task p with rt, uclampEnabled })
    else none
  | .setattr p attr =>
    if p ∈ m.tasks ∧ utilInRange attr.utilMin ∧ utilInRange attr.utilMax then
      some (m.setTask p (setschedulerUclamp m.sysctl.utilMinRtDefault attr (m.task p)))
    else none
  | .fork parent child c schedResetOnFork =>
    if parent ∈ m.tasks ∧ child ∉ m.tasks then
      let t := uclampFork schedResetOnFork (m.task parent)
      some (m.addTask child { t with cpu := c, onRq := false })
    else none
  | .moveGroup p g =>
    if p ∈ m.tasks then some (m.setTask p { m.task p with group := g }) else none
  | .newGroup g parent => some { m with group := Function.update m.group g (m.group parent) }
  | .groupClamp g id value =>
    if value ≤ schedCapacityScale then
      let ucSe := { m.group g id with value := value % 2 ^ 11, bucketId := uclampBucketId value }
      some { m with group := Function.update m.group g (Function.update (m.group g) id ucSe) }
    else none
  | .sysctl knob value => some (m.sysctlUclampHandler knob value)
  | .syncRtDefault p =>
    if p ∈ m.tasks then
      some (m.setTask p (uclampUpdateUtilMinRtDefault m.sysctl.utilMinRtDefault (m.task p)))
    else none
  | .enable => some { m with schedUclampUsed := true }
  | .updateActive p id => if p ∈ m.tasks then some (m.uclampUpdateActive p id) else none

end Clamps

/-- A clamp whose bucket is the one of its value. -/
def UclampSe.Fits {B : ℕ} [NeZero B] (ucSe : UclampSe B) : Prop :=
  ucSe.value ≤ schedCapacityScale ∧ ucSe.bucketId = uclampBucketId ucSe.value

instance {B : ℕ} [NeZero B] {ucSe : UclampSe B} : Decidable ucSe.Fits :=
  inferInstanceAs (Decidable (_ ∧ _))

/-- The clamps that `init_uclamp` leaves; the tasks of the boot are not enqueued. -/
structure Clamps.Booted {C T G : Type*} {B : ℕ} [NeZero B] (m : Clamps C T G B) : Prop where
  rq : ∀ c, m.rq c = initUclampRq
  inactive : ∀ p ∈ m.tasks, ∀ id, ((m.task p).uclamp id).active = false
  request : ∀ p ∈ m.tasks, ∀ id, ((m.task p).uclampReq id).Fits
  group : ∀ g id, (m.group g id).Fits
  default : ∀ id, (m.uclampDefault id).Fits
  sysctl : m.sysctl = ⟨schedCapacityScale, schedCapacityScale, schedCapacityScale⟩

/-- `init_uclamp`, with tasks of the fair class in the root task group. -/
def initUclamp {C T G : Type*} {B : ℕ} [NeZero B] (tasks : Finset T) (cpu : T → C) :
    Clamps C T G B :=
  let none : UclampSe B := ⟨0, uclampBucketId 0, false, false⟩
  let ucMax := uclampSeSet none (uclampNone .max) false
  { tasks
    task p :=
      { uclampReq id := uclampSeSet none (uclampNone id) false
        uclamp _ := none
        uclampEnabled := true
        rt := false
        group := Option.none
        cpu := cpu p
        onRq := false }
    rq _ := initUclampRq
    group _ _ := ucMax
    uclampDefault _ := ucMax
    sysctl := ⟨schedCapacityScale, schedCapacityScale, schedCapacityScale⟩
    schedUclampUsed := false }

theorem uclampSeSet_fits {B : ℕ} [NeZero B] {ucSe : UclampSe B} {v : ℕ} {u : Bool}
    (hv : v ≤ schedCapacityScale) : (uclampSeSet ucSe v u).Fits := by
  have hmod : v % 2 ^ 11 = v := Nat.mod_eq_of_lt (lt_of_le_of_lt hv (by decide))
  simp only [UclampSe.Fits, uclampSeSet, hmod, hv, and_self]

theorem uclampNone_le (id : ClampId) : uclampNone id ≤ schedCapacityScale := by
  cases id
  · exact Nat.zero_le _
  · exact le_rfl

theorem initUclamp_booted {C T G : Type*} {B : ℕ} [NeZero B] (tasks : Finset T) (cpu : T → C) :
    (initUclamp tasks cpu : Clamps C T G B).Booted where
  rq _ := rfl
  inactive _ _ _ := rfl
  request _ _ id := uclampSeSet_fits (uclampNone_le id)
  group _ _ := uclampSeSet_fits (uclampNone_le .max)
  default _ := uclampSeSet_fits (uclampNone_le .max)
  sysctl := rfl

def clamps (C T G : Type*) (B : ℕ) [NeZero B] [DecidableEq C] [DecidableEq T] [DecidableEq G] :
    System (Clamps C T G B) where
  init := Clamps.Booted
  step m m' := ∃ a, m.act a = some m'

end OperatingSystem.Kernel
