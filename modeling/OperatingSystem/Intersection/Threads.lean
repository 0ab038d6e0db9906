import OperatingSystem.Intersection.Basic
import OperatingSystem.Pthread

/-! # The threads of the intersection program

`main`, `job0` and the four workers with every pthread call they make, from the
moment when each of them that has not exited is blocked in its first wait. The
mutexes and condition variables 0 to 4 are indexed by `Option Point`, where `none`
is 0.
-/

namespace OperatingSystem.Intersection

open Pthread

inductive Thread where
  | main
  | job0
  | job (p : Point)
  deriving DecidableEq, Repr

inductive MainPc where
  | signal (p : Point)
  | join (i : Option Point)
  | exit
  deriving DecidableEq, Repr

/-- The calls of `job0`; the code is what is left of the loop iteration after the call. -/
inductive Job0Pc where
  | lock
  | firstWait
  | signal (p : Point) (code : List Op)
  | wait (code : List Op)
  | unlock
  | exit
  deriving DecidableEq, Repr

/-- The calls of a worker; `last` is whether its last vehicle has passed. -/
inductive JobPc where
  | lock
  | firstWait
  | signal (last : Bool)
  | wait
  | unlock
  | lastUnlock
  | exit
  deriving DecidableEq, Repr

abbrev Pc : Thread → Type
  | .main => MainPc
  | .job0 => Job0Pc
  | .job _ => JobPc

def tid : Option Point → Thread
  | none => .job0
  | some p => .job p

def call : ∀ t, Pc t → Call Thread (Option Point) (Option Point)
  | .main, MainPc.signal p => .signal (some p)
  | .main, MainPc.join i => .join (tid i)
  | .main, MainPc.exit => .exit
  | .job0, Job0Pc.lock => .lock none
  | .job0, Job0Pc.firstWait => .wait none none
  | .job0, Job0Pc.signal p _ => .signal (some p)
  | .job0, Job0Pc.wait _ => .wait none none
  | .job0, Job0Pc.unlock => .unlock none
  | .job0, Job0Pc.exit => .exit
  | .job p, JobPc.lock => .lock (some p)
  | .job p, JobPc.firstWait => .wait (some p) (some p)
  | .job _, JobPc.signal _ => .signal none
  | .job p, JobPc.wait => .wait (some p) (some p)
  | .job p, JobPc.unlock => .unlock (some p)
  | .job p, JobPc.lastUnlock => .unlock (some p)
  | .job _, JobPc.exit => .exit

def mainResume : MainPc → MainPc
  | .signal _ => .join none
  | .join none => .join (some .p1)
  | .join (some .p1) => .join (some .p2)
  | .join (some .p2) => .join (some .p3)
  | .join (some .p3) => .join (some .p4)
  | .join (some .p4) => .exit
  | .exit => .exit

def toCall (v : Vars) : List Op → Job0Pc × Vars
  | [] => (.unlock, v)
  | .signal p :: code => (.signal p code, v)
  | .wait :: code => (.wait code, v)
  | .putBack p :: code => toCall (putBackAt v p) code
  | .saveWhere :: code => toCall (saveWhereTemp v) code

def job0Body (v : Vars) : Job0Pc × Vars :=
  let v := tickHead v
  if allFinish v.globals then (.exit, v) else toCall v (dispatch v.globals)

def job0Resume (v : Vars) : Job0Pc → Job0Pc × Vars
  | .lock => job0Body v
  | .firstWait => job0Body v
  | .signal _ code => toCall v code
  | .wait code => toCall v code
  | .unlock => (.lock, v)
  | .exit => (.exit, v)

def jobBody (p : Point) (v : Vars) : JobPc × Vars :=
  let g := job p v.globals
  (.signal (decide (g.jobCount p = g.pCount p)), { v with globals := g })

def jobResume (p : Point) (v : Vars) : JobPc → JobPc × Vars
  | .lock => jobBody p v
  | .firstWait => jobBody p v
  | .signal last => (if last then .lastUnlock else .wait, v)
  | .wait => (.unlock, v)
  | .unlock => (.lock, v)
  | .lastUnlock => (.exit, v)
  | .exit => (.exit, v)

def resume : ∀ t, Pc t → Vars → Pc t × Vars
  | .main, pc, v => (mainResume pc, v)
  | .job0, pc, v => job0Resume v pc
  | .job p, pc, v => jobResume p v pc

def program : Program Thread (Option Point) (Option Point) Vars Pc := ⟨call, resume⟩

abbrev Threads := State Thread (Option Point) Vars Pc

/-- The program points after `create_thread`: a worker without a vehicle has exited. -/
def startPc (list : List Point) : ∀ t, Pc t
  | .main =>
    match (readStart (createRandomList list)).start with
    | some p => MainPc.signal p
    | none => MainPc.join none
  | .job0 => Job0Pc.firstWait
  | .job p => if list.count p = 0 then JobPc.exit else JobPc.firstWait

def startStatus (list : List Point) : Thread → Status
  | .main => .ready
  | .job0 => .blocked
  | .job p => if list.count p = 0 then .ready else .blocked

/-- `main` has read the first vehicle, and every thread that has not exited is blocked in its first
wait. -/
def started (list : List Point) : Threads where
  pc := startPc list
  status := startStatus list
  owner _ := none
  shared := ⟨readStart (createRandomList list), false, 0⟩

end OperatingSystem.Intersection
