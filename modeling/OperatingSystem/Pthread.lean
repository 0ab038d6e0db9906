import Mathlib.Logic.Function.Basic
import OperatingSystem.Transition

/-! # Threads with mutexes and condition variables

The interleaving semantics of threads that communicate through shared variables,
mutexes and condition variables without spurious wake-ups. One step is one call
with the code up to the next call. A signal wakes a thread that is blocked on its
condition variable and has no effect when there is none.
-/

namespace OperatingSystem.Pthread

variable {T M C G : Type*} {P : T → Type*}

/-- The calls of a thread; `exit` is where a finished thread stays. -/
inductive Call (T M C : Type*) where
  | lock (m : M)
  | unlock (m : M)
  | wait (c : C) (m : M)
  | signal (c : C)
  | join (t : T)
  | exit

/-- A thread is about to make its call, blocked in a wait, or signalled in a wait whose mutex it has
to get back. -/
inductive Status where
  | ready
  | blocked
  | woken
  deriving DecidableEq, Repr

/-- The next call at every program point, and the code after its return. -/
structure Program (T M C G : Type*) (P : T → Type*) where
  call : ∀ t, P t → Call T M C
  resume : ∀ t, P t → G → P t × G

structure State (T M G : Type*) (P : T → Type*) where
  pc : ∀ t, P t
  status : T → Status
  owner : M → Option T
  shared : G

namespace State

section Updates

variable [DecidableEq T]

/-- The call of the thread returns, and it runs to its next call. -/
def advance (prog : Program T M C G P) (t : T) (s : State T M G P) : State T M G P :=
  { s with
    pc := Function.update s.pc t (prog.resume t (s.pc t) s.shared).1
    status := Function.update s.status t .ready
    shared := (prog.resume t (s.pc t) s.shared).2 }

def setStatus (t : T) (a : Status) (s : State T M G P) : State T M G P :=
  { s with status := Function.update s.status t a }

variable {prog : Program T M C G P} {s : State T M G P} {t u : T} {a : Status}

@[simp] theorem advance_pc_self :
    (s.advance prog t).pc t = (prog.resume t (s.pc t) s.shared).1 := by
  simp [advance]

@[simp] theorem advance_pc_of_ne (h : u ≠ t) : (s.advance prog t).pc u = s.pc u := by
  simp [advance, h]

@[simp] theorem advance_status_self : (s.advance prog t).status t = .ready := by
  simp [advance]

@[simp] theorem advance_status_of_ne (h : u ≠ t) :
    (s.advance prog t).status u = s.status u := by
  simp [advance, h]

@[simp] theorem advance_owner : (s.advance prog t).owner = s.owner := rfl

@[simp] theorem advance_shared :
    (s.advance prog t).shared = (prog.resume t (s.pc t) s.shared).2 := rfl

theorem advance_pc_of {p : P t} {g : G} (h : prog.resume t (s.pc t) s.shared = (p, g)) :
    (s.advance prog t).pc t = p := by
  rw [advance_pc_self, h]

theorem advance_shared_of {p : P t} {g : G} (h : prog.resume t (s.pc t) s.shared = (p, g)) :
    (s.advance prog t).shared = g := by
  rw [advance_shared, h]

@[simp] theorem setStatus_pc : (s.setStatus t a).pc = s.pc := rfl

@[simp] theorem setStatus_self : (s.setStatus t a).status t = a := by
  simp [setStatus]

@[simp] theorem setStatus_of_ne (h : u ≠ t) : (s.setStatus t a).status u = s.status u := by
  simp [setStatus, h]

@[simp] theorem setStatus_owner : (s.setStatus t a).owner = s.owner := rfl

@[simp] theorem setStatus_shared : (s.setStatus t a).shared = s.shared := rfl

end Updates

section Owner

variable [DecidableEq M]

def setOwner (m : M) (o : Option T) (s : State T M G P) : State T M G P :=
  { s with owner := Function.update s.owner m o }

variable {s : State T M G P} {m k : M} {o : Option T}

@[simp] theorem setOwner_pc : (s.setOwner m o).pc = s.pc := rfl

@[simp] theorem setOwner_status : (s.setOwner m o).status = s.status := rfl

@[simp] theorem setOwner_self : (s.setOwner m o).owner m = o := by
  simp [setOwner]

@[simp] theorem setOwner_of_ne (h : k ≠ m) : (s.setOwner m o).owner k = s.owner k := by
  simp [setOwner, h]

@[simp] theorem setOwner_shared : (s.setOwner m o).shared = s.shared := rfl

end Owner

end State

open State

def Blocked (prog : Program T M C G P) (s : State T M G P) (t : T) (c : C) : Prop :=
  s.status t = .blocked ∧ ∃ m, prog.call t (s.pc t) = .wait c m

def Finished (prog : Program T M C G P) (s : State T M G P) (t : T) : Prop :=
  s.status t = .ready ∧ prog.call t (s.pc t) = .exit

variable [DecidableEq T] [DecidableEq M]

inductive Step (prog : Program T M C G P) (s : State T M G P) (t : T) : State T M G P → Prop where

  | lock {m : M} : s.status t = .ready → prog.call t (s.pc t) = .lock m → s.owner m = none →
      Step prog s t ((s.setOwner m (some t)).advance prog t)

  | unlock {m : M} : s.status t = .ready → prog.call t (s.pc t) = .unlock m →
      Step prog s t ((s.setOwner m none).advance prog t)

  | block {c : C} {m : M} : s.status t = .ready → prog.call t (s.pc t) = .wait c m →
      Step prog s t ((s.setOwner m none).setStatus t .blocked)

  | wake {c : C} {m : M} : s.status t = .woken → prog.call t (s.pc t) = .wait c m →
      s.owner m = none → Step prog s t ((s.setOwner m (some t)).advance prog t)

  | signal {c : C} {u : T} : s.status t = .ready → prog.call t (s.pc t) = .signal c →
      Blocked prog s u c → Step prog s t ((s.setStatus u .woken).advance prog t)

  | drop {c : C} : s.status t = .ready → prog.call t (s.pc t) = .signal c →
      (∀ u, ¬ Blocked prog s u c) → Step prog s t (s.advance prog t)

  | join {u : T} : s.status t = .ready → prog.call t (s.pc t) = .join u → Finished prog s u →
      Step prog s t (s.advance prog t)

/-- All interleavings of the threads from an initial state. -/
def system (prog : Program T M C G P) (s₀ : State T M G P) : System (State T M G P) where
  init s := s = s₀
  step s s' := ∃ t, Step prog s t s'

/-- A thread about to signal has a thread blocked on the condition variable. -/
def Received (prog : Program T M C G P) (s : State T M G P) (t : T) : Prop :=
  ∀ c, s.status t = .ready → prog.call t (s.pc t) = .signal c → ∃ u, Blocked prog s u c

/-- The interleavings in which no thread signals before the receiver is blocked. -/
def receivedSystem (prog : Program T M C G P) (s₀ : State T M G P) : System (State T M G P) where
  init s := s = s₀
  step s s' := ∃ t, Step prog s t s' ∧ Received prog s t

/-- Every thread is finished, blocked in a wait or joining a thread that has not finished. -/
def Deadlock (prog : Program T M C G P) (s : State T M G P) : Prop :=
  ∀ t, Finished prog s t ∨ s.status t = .blocked ∨
    s.status t = .ready ∧ ∃ u, prog.call t (s.pc t) = .join u ∧ ¬ Finished prog s u

variable {prog : Program T M C G P} {s s' : State T M G P} {t : T}

/-- A deadlock is final. -/
theorem Deadlock.no_step (h : Deadlock prog s) : ¬ Step prog s t s' := by
  intro hstep
  obtain ⟨hs, hc⟩ | hs | ⟨hs, u, hc, hu⟩ := h t
  · cases hstep <;> simp_all
  · cases hstep <;> simp_all
  · cases hstep <;> simp_all

section Inversion

variable {c : C} {m : M} {u : T} (h : Step prog s t s')

include h

theorem Step.of_lock (hc : prog.call t (s.pc t) = .lock m) :
    s' = (s.setOwner m (some t)).advance prog t := by
  cases h <;> simp_all

theorem Step.of_unlock (hc : prog.call t (s.pc t) = .unlock m) :
    s' = (s.setOwner m none).advance prog t := by
  cases h <;> simp_all

theorem Step.of_wait (hc : prog.call t (s.pc t) = .wait c m) :
    s.status t = .ready ∧ s' = (s.setOwner m none).setStatus t .blocked ∨
      s.status t = .woken ∧ s' = (s.setOwner m (some t)).advance prog t := by
  cases h <;> simp_all

theorem Step.of_signal (hr : Received prog s t) (hc : prog.call t (s.pc t) = .signal c) :
    ∃ u, Blocked prog s u c ∧ s' = (s.setStatus u .woken).advance prog t := by
  cases h with
  | signal hs hd hu =>
    obtain rfl : _ = c := by simpa [hd] using hc
    exact ⟨_, hu, rfl⟩
  | drop hs hd hu =>
    obtain ⟨u, hb⟩ := hr _ hs hd
    exact absurd hb (hu u)
  | _ => simp_all

theorem Step.of_join (hc : prog.call t (s.pc t) = .join u) : s' = s.advance prog t := by
  cases h <;> simp_all

theorem Step.of_exit (hc : prog.call t (s.pc t) = .exit) : False := by
  cases h <;> simp_all

theorem Step.not_blocked : s.status t ≠ .blocked := by
  intro hb
  cases h <;> simp_all

end Inversion

section Enabled

variable {c : C} {m : M} {u : T}

omit [DecidableEq T] [DecidableEq M] in
theorem Received.of_call {a : Call T M C} (h : prog.call t (s.pc t) = a) (ha : ∀ c, a ≠ .signal c) :
    Received prog s t :=
  fun c _ hc => absurd (h.symm.trans hc) (ha c)

theorem unlock_enabled (hs : s.status t = .ready) (hc : prog.call t (s.pc t) = .unlock m) :
    ∃ s', Step prog s t s' ∧ Received prog s t :=
  ⟨_, .unlock hs hc, .of_call hc nofun⟩

theorem block_enabled (hs : s.status t = .ready) (hc : prog.call t (s.pc t) = .wait c m) :
    ∃ s', Step prog s t s' ∧ Received prog s t :=
  ⟨_, .block hs hc, .of_call hc nofun⟩

theorem signal_enabled (hs : s.status t = .ready) (hc : prog.call t (s.pc t) = .signal c)
    (hb : Blocked prog s u c) : ∃ s', Step prog s t s' ∧ Received prog s t := by
  refine ⟨_, .signal hs hc hb, fun d _ hd => ?_⟩
  obtain rfl : c = d := by simpa [hc] using hd
  exact ⟨u, hb⟩

end Enabled

/-- Every mutex belongs to one thread, which holds it at the given program points. -/
structure Private (prog : Program T M C G P) (home : M → T) (holds : ∀ t, P t → Bool) : Prop where
  injective : Function.Injective home
  lock : ∀ {t p m}, prog.call t p = .lock m →
    home m = t ∧ holds t p = false ∧ ∀ g, holds t (prog.resume t p g).1 = true
  unlock : ∀ {t p m}, prog.call t p = .unlock m →
    home m = t ∧ holds t p = true ∧ ∀ g, holds t (prog.resume t p g).1 = false
  wait : ∀ {t p c m}, prog.call t p = .wait c m →
    home m = t ∧ holds t p = true ∧ ∀ g, holds t (prog.resume t p g).1 = true
  signal : ∀ {t p c}, prog.call t p = .signal c → ∀ g, holds t (prog.resume t p g).1 = holds t p
  join : ∀ {t p u}, prog.call t p = .join u → ∀ g, holds t (prog.resume t p g).1 = holds t p

/-- The owner of a mutex is its thread, when that thread is past the lock. -/
def Owned (home : M → T) (holds : ∀ t, P t → Bool) (s : State T M G P) : Prop :=
  ∀ m, s.owner m =
    if s.status (home m) = .ready ∧ holds (home m) (s.pc (home m)) = true then some (home m) else none

namespace Private

variable {home : M → T} {holds : ∀ t, P t → Bool}

omit [DecidableEq T] [DecidableEq M] in
theorem home_ne (hp : Private prog home holds) {m k : M} (hm : home m = t) (hk : k ≠ m) :
    home k ≠ t := by
  rintro rfl
  exact hk (hp.injective hm.symm)

omit [DecidableEq T] [DecidableEq M] in
/-- A thread that changes only its own mutex and its own state, and these together, keeps every owner
right. -/
theorem owned_home (hp : Private prog home holds) (ho : Owned home holds s) {m : M}
    (hm : home m = t) (howner : ∀ k ≠ m, s'.owner k = s.owner k)
    (hother : ∀ u ≠ t, s'.status u = s.status u ∧ s'.pc u = s.pc u)
    (hself : s'.owner m =
      if s'.status t = .ready ∧ holds t (s'.pc t) = true then some t else none) :
    Owned home holds s' := by
  intro k
  rcases eq_or_ne k m with rfl | hne
  · rw [hm]
    exact hself
  · obtain ⟨hstatus, hpc⟩ := hother _ (hp.home_ne hm hne)
    rw [howner k hne, hstatus, hpc]
    exact ho k

theorem owned_step (hp : Private prog home holds) (ho : Owned home holds s)
    (h : Step prog s t s') : Owned home holds s' := by
  cases h with
  | @lock m hs hc hn =>
    obtain ⟨hm, -, hh⟩ := hp.lock hc
    exact hp.owned_home ho hm (by simp +contextual) (by simp +contextual) (by simp [hh])
  | @unlock m hs hc =>
    obtain ⟨hm, -, hh⟩ := hp.unlock hc
    exact hp.owned_home ho hm (by simp +contextual) (by simp +contextual) (by simp [hh])
  | @block c m hs hc =>
    obtain ⟨hm, -, -⟩ := hp.wait hc
    exact hp.owned_home ho hm (by simp +contextual) (by simp +contextual) (by simp)
  | @wake c m hs hc hn =>
    obtain ⟨hm, -, hh⟩ := hp.wait hc
    exact hp.owned_home ho hm (by simp +contextual) (by simp +contextual) (by simp [hh])
  | @signal c u hs hc hb =>
    intro k
    have hk := ho k
    have hu : u ≠ t := by
      rintro rfl
      simp [hb.1] at hs
    rcases eq_or_ne (home k) t with rfl | hne
    · simpa [hp.signal hc, hs] using hk
    · rcases eq_or_ne (home k) u with rfl | hne'
      · simpa [hne, hb.1] using hk
      · simpa [hne, hne'] using hk
  | @drop c hs hc hn =>
    intro k
    have hk := ho k
    rcases eq_or_ne (home k) t with rfl | hne
    · simpa [hp.signal hc, hs] using hk
    · simpa [hne] using hk
  | @join u hs hc hf =>
    intro k
    have hk := ho k
    rcases eq_or_ne (home k) t with rfl | hne
    · simpa [hp.join hc, hs] using hk
    · simpa [hne] using hk

theorem lock_enabled (hp : Private prog home holds) (ho : Owned home holds s) {m : M}
    (hs : s.status t = .ready) (hc : prog.call t (s.pc t) = .lock m) :
    ∃ s', Step prog s t s' ∧ Received prog s t := by
  obtain ⟨rfl, hh, -⟩ := hp.lock hc
  exact ⟨_, .lock hs hc (by simp [ho m, hh]), .of_call hc nofun⟩

theorem wake_enabled (hp : Private prog home holds) (ho : Owned home holds s) {c : C} {m : M}
    (hs : s.status t = .woken) (hc : prog.call t (s.pc t) = .wait c m) :
    ∃ s', Step prog s t s' ∧ Received prog s t := by
  obtain ⟨rfl, -, -⟩ := hp.wait hc
  exact ⟨_, .wake hs hc (by simp [ho m, hs]), .of_call hc nofun⟩

end Private

end OperatingSystem.Pthread
