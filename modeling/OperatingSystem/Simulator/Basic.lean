import Mathlib.Data.Int.Order.Basic
import Mathlib.Data.List.Rotate

/-! # The page replacement simulator

The four branches of `simulator.c`. A store outside an array has no result, so
a run that returns a state has stayed inside `page_frame` and `reference_bit`.
The pages and the bits are the integers of the source, with a negative page for
a free frame.
-/

namespace OperatingSystem.Simulator

inductive Method where
  | opt
  | fifo
  | lru
  | secondChance
  deriving DecidableEq, Repr

/-- One printed line: the time, the frames and the page fault mark. -/
structure Row where
  time : ℕ
  pageFrame : List ℤ
  fault : Bool
  deriving DecidableEq, Repr

/-- The variables of a branch. `victim` is the circular pointer of FIFO and Second-Chance. -/
structure Frames where
  pageFrame : List ℤ
  referenceBit : List ℤ
  pageFault : ℕ
  victim : ℕ
  replace : Bool
  rows : List Row
  deriving DecidableEq, Repr

/-- The variables before the first reference, as `memset` leaves them. -/
def initial (frameSize : ℕ) : Frames where
  pageFrame := List.replicate frameSize (-1)
  referenceBit := List.replicate frameSize 0
  pageFault := 0
  victim := 0
  replace := false
  rows := []

/-- `a[j] = v`, defined inside the array only. -/
def store (a : List ℤ) (j v : ℤ) : Option (List ℤ) :=
  if 0 ≤ j ∧ j < a.length then some (a.set j.toNat v) else none

/-- How the lookup loop of a branch ends. -/
inductive Lookup where
  | hit (j : ℕ)
  | free (j : ℕ)
  | absent
  deriving DecidableEq, Repr

/-- The lookup loop from frame `j` on: it stops at the page or at the first free frame. -/
def lookup (page : ℤ) : List ℤ → ℕ → Lookup
  | [], _ => .absent
  | p :: rest, j =>
    if p = page then .hit j
    else if p < 0 then .free j
    else lookup page rest (j + 1)

def place (page : ℤ) (s : Frames) (j : ℤ) : Option Frames := do
  let pageFrame ← store s.pageFrame j page
  some { s with pageFrame, pageFault := s.pageFault + 1, replace := true }

/-- The search for the first `k` with `page_reference[k] = page`, over the references from `k` on. -/
def nextUse (page : ℤ) : List ℤ → ℕ → Option ℕ
  | [], _ => none
  | q :: rest, k => if page = q then some k else nextUse page rest (k + 1)

/-- The victim search of the OPT branch from frame `j` on. -/
def optVictim (pageReference : List ℤ) (i : ℕ) : List ℤ → ℕ → ℤ → ℤ → ℤ
  | [], _, _, victim => victim
  | p :: rest, j, location, victim =>
    match nextUse p (pageReference.drop (i + 1)) (i + 1) with
    | none => j
    | some k =>
      if location < k then optVictim pageReference i rest (j + 1) k j
      else optVictim pageReference i rest (j + 1) location victim

/-- The search for the last `k` below the given bound with `page_reference[k] = page`. -/
def lastUse (page : ℤ) (pageReference : List ℤ) : ℕ → Option ℕ
  | 0 => none
  | k + 1 => if pageReference[k]? = some page then some k else lastUse page pageReference k

/-- The victim search of the LRU branch from frame `j` on. -/
def lruVictim (pageReference : List ℤ) (i : ℕ) : List ℤ → ℕ → ℤ → ℤ → ℤ
  | [], _, _, victim => victim
  | p :: rest, j, location, victim =>
    match lastUse p pageReference i with
    | none => lruVictim pageReference i rest (j + 1) location victim
    | some k =>
      if location > k then lruVictim pageReference i rest (j + 1) k j
      else lruVictim pageReference i rest (j + 1) location victim

/-- One iteration of a branch whose hits change nothing and whose faults on full frames `evict`. -/
def refer (evict : Frames → Option Frames) (page : ℤ) (s : Frames) : Option Frames :=
  match lookup page s.pageFrame 0 with
  | .hit _ => some { s with replace := false }
  | .free j => place page s j
  | .absent => evict s

def optReference (pageReference : List ℤ) (i : ℕ) (page : ℤ) : Frames → Option Frames :=
  refer (fun s => place page s (optVictim pageReference i s.pageFrame 0 (-1) (-1))) page

/-- `if (victim == frame_size) victim = 0` -/
def wrap (s : Frames) : Frames :=
  if s.victim = s.pageFrame.length then { s with victim := 0 } else s

/-- `page_frame[victim] = page; victim++` -/
def fifoEvict (page : ℤ) (s : Frames) : Option Frames := do
  let s ← place page s s.victim
  some { s with victim := s.victim + 1 }

def fifoReference (page : ℤ) (s : Frames) : Option Frames :=
  (refer (fifoEvict page) page s).map wrap

def lruReference (pageReference : List ℤ) (i : ℕ) (page : ℤ) : Frames → Option Frames :=
  refer (fun s => place page s (lruVictim pageReference i s.pageFrame 0 99 (-1))) page

/-- `fuel` iterations from frame `j` of a Second-Chance scan: the bits, with those passed over
cleared, and the first frame whose bit was 0. -/
def sweep (bits : List ℤ) (j : ℕ) : ℕ → Option (List ℤ × Option ℕ)
  | 0 => some (bits, none)
  | fuel + 1 => do
    let b ← bits[j]?
    if b = 0 then some (bits, some j)
    else if b = 1 then
      let bits ← store bits j 0
      sweep bits (j + 1) fuel
    else sweep bits (j + 1) fuel

/-- `page_frame[j] = page; victim = j + 1` -/
def chanceEvict (page : ℤ) (s : Frames) (j : ℕ) : Option Frames := do
  let s ← place page s j
  some { s with victim := j + 1 }

/-- The victim search of the Second-Chance branch: `[victim, n)`, then `[0, victim)`, then the
frame at `victim`. -/
def secondChanceEvict (page : ℤ) (s : Frames) : Option Frames := do
  let (bits, found) ← sweep s.referenceBit s.victim (s.pageFrame.length - s.victim)
  match found with
  | some j => chanceEvict page { s with referenceBit := bits } j
  | none =>
    let (bits, found) ← sweep bits 0 s.victim
    match found with
    | some j => chanceEvict page { s with referenceBit := bits } j
    | none => chanceEvict page { s with referenceBit := bits } s.victim

/-- One iteration of the Second-Chance branch, whose lookup also sets and clears bits. -/
def secondChanceReference (page : ℤ) (s : Frames) : Option Frames :=
  (match lookup page s.pageFrame 0 with
  | .hit j => do
    let referenceBit ← store s.referenceBit j 1
    some { s with referenceBit, replace := false }
  | .free j => do
    let s ← place page s j
    let referenceBit ← store s.referenceBit j 0
    some { s with referenceBit }
  | .absent => secondChanceEvict page s).map wrap

def Method.reference (pageReference : List ℤ) (i : ℕ) (page : ℤ) :
    Method → Frames → Option Frames
  | .opt => optReference pageReference i page
  | .fifo => fifoReference page
  | .lru => lruReference pageReference i page
  | .secondChance => secondChanceReference page

def printRow (i : ℕ) (s : Frames) : Frames :=
  { s with rows := s.rows ++ [⟨i + 1, s.pageFrame, s.replace⟩] }

def Method.after (m : Method) (frameSize : ℕ) (pageReference : List ℤ) : ℕ → Option Frames
  | 0 => some (initial frameSize)
  | i + 1 => do
    let s ← m.after frameSize pageReference i
    let page ← pageReference[i]?
    let s ← m.reference pageReference i page s
    some (printRow i s)

/-- The whole branch, which ends by printing its `page_fault`. -/
def Method.run (m : Method) (frameSize : ℕ) (pageReference : List ℤ) : Option Frames :=
  m.after frameSize pageReference pageReference.length

end OperatingSystem.Simulator
