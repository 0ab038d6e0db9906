import Mathlib.Data.List.ReduceOption
import Mathlib.Data.Nat.Basic
import Mathlib.Logic.Function.Basic

/-! # The intersection program

The shared variables of `program.c` and the code between two pthread calls of its
threads. A start point is one of four values, and the integer 0 of the source,
which stands for no vehicle, is `none`.
-/

namespace OperatingSystem.Intersection

/-- The start points 1 to 4. -/
inductive Point where
  | p1
  | p2
  | p3
  | p4
  deriving DecidableEq, Repr

/-- One block printed by `print_progress`. -/
structure Progress where
  tick : ℕ
  passed : List Point
  waiting : List Point
  deriving DecidableEq, Repr

/-- The global variables, with the blocks printed so far in `out`. -/
structure Globals where
  jobCount : Point → ℕ
  startPointList : List Point
  passedList : List (Option Point)
  waitingList : List (Option Point)
  pCount : Point → ℕ
  process : Point → ℕ
  tick : ℕ
  listIndex : ℕ
  passedIndex : ℕ
  waitingIndex : ℕ
  key : Option Point
  start : Option Point
  whereAt : Option Point
  whereTemp : Option Point
  finish : Point → Bool
  out : List Progress

/-- The globals after `create_random_list` has generated the list and every thread without a
vehicle has set its `finish` flag and exited. -/
def createRandomList (list : List Point) : Globals where
  jobCount _ := 0
  startPointList := list
  passedList := List.replicate 10 none
  waitingList := List.replicate 20 none
  pCount p := list.count p
  process _ := 0
  tick := 1
  listIndex := 0
  passedIndex := 0
  waitingIndex := 0
  key := none
  start := none
  whereAt := none
  whereTemp := none
  finish p := decide (list.count p = 0)
  out := []

/-- `start = start_point_list[list_index++]`, where an entry past the generated ones is 0. -/
def readStart (g : Globals) : Globals :=
  { g with start := g.startPointList[g.listIndex]?, listIndex := g.listIndex + 1 }

def printProgress (g : Globals) : Globals :=
  { g with
    tick := g.tick + 1
    out := g.out ++ [⟨g.tick, g.passedList.reduceOption, g.waitingList.reduceOption⟩] }

/-- `passed_index = 0` and the loop that clears `passed_list`. -/
def clearPassed (g : Globals) : Globals :=
  { g with passedIndex := 0, passedList := List.replicate 10 none }

def arrive (g : Globals) : Globals :=
  let g := readStart g
  match g.start with
  | none => g
  | some p =>
    { g with
      waitingList := g.waitingList.set g.waitingIndex (some p)
      waitingIndex := g.waitingIndex + 1 }

def faces : Option Point → Option Point → Bool
  | some .p1, some .p3 => true
  | some .p2, some .p4 => true
  | some .p3, some .p1 => true
  | some .p4, some .p2 => true
  | _, _ => false

def firstIndex (test : Option Point → Bool) : List (Option Point) → ℕ → Option ℕ
  | [], _ => none
  | v :: rest, i => if test v then some i else firstIndex test rest (i + 1)

def take (g : Globals) (i : ℕ) : Globals :=
  { g with key := g.waitingList[i]?.join, waitingList := g.waitingList.set i none }

/-- The two selection loops. The second component is `idx`, which keeps its value when no vehicle
is waiting. -/
def select (g : Globals) (idx : ℕ) : Globals × ℕ :=
  let g := { g with key := none }
  match firstIndex (faces g.whereAt) g.waitingList 0 with
  | some i => (take g i, i)
  | none =>
    match firstIndex Option.isSome g.waitingList 0 with
    | some i => (take g i, i)
    | none => (g, idx)

def allFinish (g : Globals) : Bool :=
  g.finish .p1 && g.finish .p2 && g.finish .p3 && g.finish .p4

/-- One iteration of a worker from its wake-up to its signal of `cond0`. -/
def work (p : Point) (g : Globals) : Globals :=
  let g := { g with process := Function.update g.process p (g.process p + 1) }
  let g :=
    if g.process p = 1 then { g with whereAt := some p }
    else if g.process p = 2 then
      { g with
        passedList := g.passedList.set g.passedIndex (some p)
        passedIndex := g.passedIndex + 1
        jobCount := Function.update g.jobCount p (g.jobCount p + 1)
        process := Function.update g.process p 0
        whereAt := none }
    else g
  if g.jobCount p = g.pCount p then { g with finish := Function.update g.finish p true } else g

def job1 : Globals → Globals := work .p1
def job2 : Globals → Globals := work .p2
def job3 : Globals → Globals := work .p3
def job4 : Globals → Globals := work .p4

def job : Point → Globals → Globals
  | .p1 => job1
  | .p2 => job2
  | .p3 => job3
  | .p4 => job4

/-- What `job0` does between its selection and the end of its loop. -/
inductive Op where
  | signal (p : Point)
  | wait
  | putBack (p : Point)
  | saveWhere
  deriving DecidableEq, Repr

open Point Op

/-- The inner `switch (key)` of each case of `switch (where)`. -/
def switchKey : Option Point → Option Point → List Op
  | none, none => []
  | none, some p1 => [signal p1]
  | none, some p2 => [signal p2]
  | none, some p3 => [signal p3]
  | none, some p4 => [signal p4]
  | some _, none => []
  | some p1, some p1 => [putBack p1]
  | some p1, some p2 => [putBack p2]
  | some p1, some p3 => [signal p3, wait, saveWhere]
  | some p1, some p4 => [putBack p4]
  | some p2, some p1 => [putBack p1]
  | some p2, some p2 => [putBack p2]
  | some p2, some p3 => [putBack p3]
  | some p2, some p4 => [signal p4, wait, saveWhere]
  | some p3, some p1 => [signal p1, wait, saveWhere]
  | some p3, some p2 => [putBack p2]
  | some p3, some p3 => [putBack p3]
  | some p3, some p4 => [putBack p4]
  | some p4, some p1 => [putBack p1]
  | some p4, some p2 => [signal p2, wait, saveWhere]
  | some p4, some p3 => [putBack p3]
  | some p4, some p4 => [putBack p4]

def switchWhere : Option Point → List Op
  | none => []
  | some p1 => [signal p1]
  | some p2 => [signal p2]
  | some p3 => [signal p3]
  | some p4 => [signal p4]

def dispatch (g : Globals) : List Op := switchKey g.whereAt g.key ++ switchWhere g.whereAt ++ [wait]

structure Vars where
  globals : Globals
  temp : Bool
  idx : ℕ

def restoreWhere (v : Vars) : Vars :=
  if v.temp then { v with globals := { v.globals with whereAt := v.globals.whereTemp }, temp := false }
  else v

/-- `job0` from `print_progress` to its selection loops. -/
def beforeSelect (v : Vars) : Vars :=
  restoreWhere { v with globals := arrive (clearPassed (printProgress v.globals)) }

/-- `job0` from `print_progress` to the test of the `finish` flags. -/
def tickHead (v : Vars) : Vars :=
  let v := beforeSelect v
  let (g, idx) := select v.globals v.idx
  { v with globals := g, idx := idx }

def putBackAt (v : Vars) (p : Point) : Vars :=
  { v with globals := { v.globals with waitingList := v.globals.waitingList.set v.idx (some p) } }

def saveWhereTemp (v : Vars) : Vars :=
  { v with globals := { v.globals with whereTemp := v.globals.whereAt }, temp := true }

end OperatingSystem.Intersection
