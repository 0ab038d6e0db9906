import OperatingSystem.Intersection.Basic
import OperatingSystem.Transition

/-! # The synchronous handshake

The program as its authors intend it: a signal to a worker makes it run exactly
one iteration before the matching wait of `job0` returns. A wait that no signal
precedes blocks for good.
-/

namespace OperatingSystem.Intersection

open Op

/-- `job0` in the middle of its loop: the calls left in the current iteration and the worker that
has been signalled and has not run yet. -/
structure Control extends Vars where
  pending : Option Point
  code : List Op
  done : Bool

/-- `main` has read the first vehicle and signalled its worker; `job0` is in its first wait. -/
def boot (list : List Point) : Control where
  globals := readStart (createRandomList list)
  temp := false
  idx := 0
  pending := (readStart (createRandomList list)).start
  code := [wait]
  done := false

/-- A new iteration of the loop of `job0`, up to its first pthread call. -/
def loop (c : Control) : Control :=
  let v := tickHead c.toVars
  if allFinish v.globals then { c with toVars := v, done := true }
  else { c with toVars := v, code := dispatch v.globals }

def signalled (g : Globals) (p : Point) : Option Point := if g.finish p then none else some p

/-- One step of the program, if there is one. -/
def Control.next (c : Control) : Option Control :=
  if c.done then none
  else match c.code with
  | [] => some (loop c)
  | signal p :: code => some { c with pending := signalled c.globals p, code := code }
  | wait :: code =>
    match c.pending with
    | none => none
    | some p => some { c with globals := job p c.globals, pending := none, code := code }
  | putBack p :: code => some { c with toVars := putBackAt c.toVars p, code := code }
  | saveWhere :: code => some { c with toVars := saveWhereTemp c.toVars, code := code }

inductive Control.Step (c : Control) : Control → Prop where
  | loop : c.code = [] → Step c (loop c)
  | signal {p : Point} {code : List Op} : c.code = signal p :: code →
      Step c { c with pending := signalled c.globals p, code := code }
  | wait {p : Point} {code : List Op} : c.code = wait :: code → c.pending = some p →
      Step c { c with globals := job p c.globals, pending := none, code := code }
  | putBack {p : Point} {code : List Op} : c.code = putBack p :: code →
      Step c { c with toVars := putBackAt c.toVars p, code := code }
  | saveWhere {code : List Op} : c.code = saveWhere :: code →
      Step c { c with toVars := saveWhereTemp c.toVars, code := code }

theorem Control.step_of_next {c c' : Control} (h : c.next = some c') :
    c.done = false ∧ c.Step c' := by
  unfold Control.next at h
  split at h
  case isTrue => cases h
  case isFalse hd =>
    constructor
    · simpa using hd
    split at h
    case h_1 hc =>
      obtain rfl := Option.some.inj h
      exact .loop hc
    case h_2 p code hc =>
      obtain rfl := Option.some.inj h
      exact .signal hc
    case h_3 code hc =>
      split at h
      case h_1 => cases h
      case h_2 p hp =>
        obtain rfl := Option.some.inj h
        exact .wait hc hp
    case h_4 p code hc =>
      obtain rfl := Option.some.inj h
      exact .putBack hc
    case h_5 code hc =>
      obtain rfl := Option.some.inj h
      exact .saveWhere hc

def handshake (list : List Point) : System Control where
  init c := c = boot list
  step c c' := c.next = some c'

/-- The state after a number of steps, if the program takes so many. -/
def handshakeRun (list : List Point) : ℕ → Option Control
  | 0 => some (boot list)
  | k + 1 => (handshakeRun list k).bind Control.next

theorem handshakeRun_reachable {list : List Point} {k : ℕ} {c : Control}
    (h : handshakeRun list k = some c) : (handshake list).Reachable c := by
  induction k generalizing c with
  | zero => exact .init (Option.some.inj h).symm
  | succ k ih =>
    obtain ⟨b, hb, hc⟩ := Option.bind_eq_some_iff.mp h
    exact (ih hb).tail hc

theorem handshakeRun_break {list : List Point} {K : ℕ} {c : Control}
    (h : handshakeRun list K = some c) (hdone : c.done = true) :
    ∃ k b, handshakeRun list k = some b ∧ b.done = false ∧ b.code = [] ∧ c = loop b := by
  cases K with
  | zero =>
    obtain rfl := Option.some.inj h
    cases hdone
  | succ k =>
    obtain ⟨b, hb, hc⟩ := Option.bind_eq_some_iff.mp h
    obtain ⟨hd, hstep⟩ := Control.step_of_next hc
    cases hstep with
    | loop hcode => exact ⟨k, b, hb, hd, hcode, rfl⟩
    | signal => exact absurd (hd.symm.trans hdone) (by decide)
    | wait => exact absurd (hd.symm.trans hdone) (by decide)
    | putBack => exact absurd (hd.symm.trans hdone) (by decide)
    | saveWhere => exact absurd (hd.symm.trans hdone) (by decide)

def AtPrint (c : Control) : Prop := c.done = false ∧ c.code = []

end OperatingSystem.Intersection
