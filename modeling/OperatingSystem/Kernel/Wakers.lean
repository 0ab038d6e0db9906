import Mathlib.Data.List.Nodup
import OperatingSystem.Kernel.WakeQ

/-! # What wake-up queues are for

Each context has a line of tasks to wake. A task stands in one line at most; a
context takes the first task of its line out of it and wakes it then. So a wake-up
that somebody asks for is never lost, also where a task was found in a line.
-/

namespace OperatingSystem.Kernel

/-- The lines of the contexts, and the task that each has taken and not woken yet. -/
structure Wakers (H T : Type*) where
  line : H → List T
  due : H → Option T
  log : List (WakeEvent H T)

section Log

variable {H T : Type*} [DecidableEq H]

def queuedBy (h : H) (log : List (WakeEvent H T)) : List T :=
  log.filterMap fun
    | .queued i task => if i = h then some task else none
    | _ => none

def wokenBy (h : H) (log : List (WakeEvent H T)) : List T :=
  log.filterMap fun
    | .woken i task => if i = h then some task else none
    | _ => none

def Requested (task : T) (e : WakeEvent H T) : Prop :=
  ∃ h, e = .queued h task ∨ e = .refused h task

variable {h i : H} {t u : T} {log : List (WakeEvent H T)} {e : WakeEvent H T}

@[simp] theorem queuedBy_queued :
    queuedBy h (log ++ [.queued i t]) = queuedBy h log ++ if i = h then [t] else [] := by
  unfold queuedBy
  rw [List.filterMap_append]
  split <;> simp [*]

@[simp] theorem queuedBy_refused : queuedBy h (log ++ [.refused i t]) = queuedBy h log := by
  simp [queuedBy]

@[simp] theorem queuedBy_woken : queuedBy h (log ++ [.woken i t]) = queuedBy h log := by
  simp [queuedBy]

@[simp] theorem wokenBy_queued : wokenBy h (log ++ [.queued i t]) = wokenBy h log := by
  simp [wokenBy]

@[simp] theorem wokenBy_refused : wokenBy h (log ++ [.refused i t]) = wokenBy h log := by
  simp [wokenBy]

@[simp] theorem wokenBy_woken :
    wokenBy h (log ++ [.woken i t]) = wokenBy h log ++ if i = h then [t] else [] := by
  unfold wokenBy
  rw [List.filterMap_append]
  split <;> simp [*]

end Log

namespace Wakers

variable {H T : Type*} {w w' : Wakers H T} {h i : H} {t : T} {ts : List T}

inductive Step [DecidableEq H] (w : Wakers H T) : Wakers H T → Prop where
  | queue {h : H} {t : T} : (∀ i, t ∉ w.line i) →
      Step w ⟨Function.update w.line h (w.line h ++ [t]), w.due, w.log ++ [.queued h t]⟩
  | refuse {h i : H} {t : T} : t ∈ w.line i → Step w ⟨w.line, w.due, w.log ++ [.refused h t]⟩
  | take {h : H} {t : T} {ts : List T} : w.line h = t :: ts → w.due h = none →
      Step w ⟨Function.update w.line h ts, Function.update w.due h (some t), w.log⟩
  | wake {h : H} {t : T} : w.due h = some t →
      Step w ⟨w.line, Function.update w.due h none, w.log ++ [.woken h t]⟩

def Pending (w : Wakers H T) (t : T) : Prop := ∃ h, w.due h = some t ∨ t ∈ w.line h

/-- A task stands in one line at most, lines are first-in first-out, and nothing that was asked
for is forgotten. -/
structure Orderly [DecidableEq H] (w : Wakers H T) : Prop where
  nodup : ∀ h, (w.line h).Nodup
  apart : ∀ h i t, t ∈ w.line h → t ∈ w.line i → h = i
  fifo : ∀ h, queuedBy h w.log = wokenBy h w.log ++ (w.due h).toList ++ w.line h
  kept : ∀ past e future t, w.log = past ++ e :: future → Requested t e →
    (∃ h, .woken h t ∈ future) ∨ w.Pending t

/-- A request stays answered or pending when one more event is logged. -/
theorem kept_append {log : List (WakeEvent H T)} {e : WakeEvent H T} {P Q : T → Prop}
    (h : ∀ past e future t, log = past ++ e :: future → Requested t e →
      (∃ h, .woken h t ∈ future) ∨ P t)
    (hold : ∀ t, P t → (∃ h, e = .woken h t) ∨ Q t) (hnew : ∀ t, Requested t e → Q t) :
    ∀ past e' future t, log ++ [e] = past ++ e' :: future → Requested t e' →
      (∃ h, .woken h t ∈ future) ∨ Q t := by
  intro past e' future t heq hreq
  rcases List.eq_nil_or_concat future with rfl | ⟨future, last, rfl⟩
  · obtain ⟨-, he⟩ := List.append_inj' heq rfl
    obtain rfl := List.head_eq_of_cons_eq he
    exact Or.inr (hnew t hreq)
  · have heq' : log ++ [e] = (past ++ e' :: future) ++ [last] := by simpa using heq
    obtain ⟨hlog, he⟩ := List.append_inj' heq' rfl
    obtain rfl := List.head_eq_of_cons_eq he
    rcases h past e' future t hlog hreq with ⟨i, hw⟩ | hp
    · exact Or.inl ⟨i, by simp [hw]⟩
    · rcases hold t hp with ⟨i, rfl⟩ | hq
      · exact Or.inl ⟨i, by simp⟩
      · exact Or.inr hq

variable [DecidableEq H]

theorem Orderly.queue (hw : w.Orderly) (hnew : ∀ i, t ∉ w.line i) :
    Orderly ⟨Function.update w.line h (w.line h ++ [t]), w.due, w.log ++ [.queued h t]⟩ := by
  have hsub : ∀ {i u}, u ∈ w.line i → u ∈ Function.update w.line h (w.line h ++ [t]) i := by
    intro i u hu
    rcases eq_or_ne i h with rfl | hi
    · simp [hu]
    · simpa [hi] using hu
  have hmem : ∀ {i u}, u ∈ Function.update w.line h (w.line h ++ [t]) i →
      u ∈ w.line i ∨ i = h ∧ u = t := by
    intro i u hu
    rcases eq_or_ne i h with rfl | hi
    · simpa using hu
    · exact Or.inl (by simpa [hi] using hu)
  refine ⟨fun i => ?_, fun i j u hi hj => ?_, fun i => ?_, ?_⟩
  · dsimp only
    rcases eq_or_ne i h with rfl | hi
    · rw [Function.update_self]
      simpa using (hw.nodup i).concat (hnew i)
    · rw [Function.update_of_ne hi]
      exact hw.nodup i
  · rcases hmem hi with hi' | ⟨rfl, rfl⟩
    · rcases hmem hj with hj' | ⟨-, rfl⟩
      · exact hw.apart i j u hi' hj'
      · exact absurd hi' (hnew i)
    · rcases hmem hj with hj' | ⟨rfl, -⟩
      · exact absurd hj' (hnew j)
      · rfl
  · rcases eq_or_ne i h with rfl | hi
    · simp [hw.fifo]
    · simp [hw.fifo, hi, hi.symm]
  · refine kept_append hw.kept (fun u hu => Or.inr ?_) ?_
    · obtain ⟨i, hdue | hline⟩ := hu
      · exact ⟨i, Or.inl hdue⟩
      · exact ⟨i, Or.inr (hsub hline)⟩
    · rintro u ⟨i, he | he⟩
      · obtain ⟨rfl, rfl⟩ := WakeEvent.queued.inj he
        exact ⟨h, Or.inr (by simp)⟩
      · cases he

theorem Orderly.refuse (hw : w.Orderly) (hin : t ∈ w.line i) :
    Orderly ⟨w.line, w.due, w.log ++ [.refused h t]⟩ := by
  refine ⟨hw.nodup, hw.apart, fun j => ?_, kept_append hw.kept (fun u hu => Or.inr hu) ?_⟩
  · simpa using hw.fifo j
  · rintro u ⟨j, he | he⟩
    · cases he
    · obtain ⟨-, rfl⟩ := WakeEvent.refused.inj he
      exact ⟨i, Or.inr hin⟩

theorem Orderly.take (hw : w.Orderly) (hline : w.line h = t :: ts) (hdue : w.due h = none) :
    Orderly ⟨Function.update w.line h ts, Function.update w.due h (some t), w.log⟩ := by
  have hsub : ∀ {i u}, u ∈ Function.update w.line h ts i → u ∈ w.line i := by
    intro i u hu
    rcases eq_or_ne i h with rfl | hi
    · rw [Function.update_self] at hu
      rw [hline]
      exact List.mem_cons_of_mem _ hu
    · rwa [Function.update_of_ne hi] at hu
  refine ⟨fun i => ?_, fun i j u hi hj => hw.apart i j u (hsub hi) (hsub hj), fun i => ?_, ?_⟩
  · dsimp only
    rcases eq_or_ne i h with rfl | hi
    · rw [Function.update_self]
      exact (List.nodup_cons.mp (hline ▸ hw.nodup i)).2
    · rw [Function.update_of_ne hi]
      exact hw.nodup i
  · rcases eq_or_ne i h with rfl | hi
    · simp [hw.fifo, hline, hdue]
    · simp [hw.fifo, hi]
  · intro past e future u heq hreq
    rcases hw.kept past e future u heq hreq with hwoken | ⟨i, hi | hi⟩
    · exact Or.inl hwoken
    · have hne : i ≠ h := by
        rintro rfl
        rw [hdue] at hi
        cases hi
      exact Or.inr ⟨i, Or.inl (by simpa [hne] using hi)⟩
    · rcases eq_or_ne i h with rfl | hne
      · rw [hline] at hi
        rcases List.mem_cons.mp hi with rfl | hi
        · exact Or.inr ⟨i, Or.inl (by simp)⟩
        · exact Or.inr ⟨i, Or.inr (by simpa using hi)⟩
      · exact Or.inr ⟨i, Or.inr (by simpa [hne] using hi)⟩

theorem Orderly.wake (hw : w.Orderly) (hdue : w.due h = some t) :
    Orderly ⟨w.line, Function.update w.due h none, w.log ++ [.woken h t]⟩ := by
  refine ⟨hw.nodup, hw.apart, fun i => ?_, kept_append hw.kept ?_ ?_⟩
  · rcases eq_or_ne i h with rfl | hi
    · simp [hw.fifo, hdue]
    · simp [hw.fifo, hi, hi.symm]
  · rintro u ⟨i, hi | hi⟩
    · rcases eq_or_ne i h with rfl | hne
      · rw [hdue] at hi
        obtain rfl := Option.some.inj hi
        exact Or.inl ⟨i, rfl⟩
      · exact Or.inr ⟨i, Or.inl (by simpa [hne] using hi)⟩
    · exact Or.inr ⟨i, Or.inr hi⟩
  · rintro u ⟨i, he | he⟩ <;> cases he

theorem Orderly.step (hw : w.Orderly) (hs : w.Step w') : w'.Orderly := by
  cases hs with
  | queue hnew => exact hw.queue hnew
  | refuse hin => exact hw.refuse hin
  | take hline hdue => exact hw.take hline hdue
  | wake hdue => exact hw.wake hdue

theorem free_queue {u : T} :
    (∀ i, u ∉ Function.update w.line h (w.line h ++ [t]) i) ↔ (∀ i, u ∉ w.line i) ∧ u ≠ t := by
  constructor
  · intro hu
    refine ⟨fun i hi => ?_, ?_⟩
    · refine hu i ?_
      rcases eq_or_ne i h with rfl | hne
      · simp [hi]
      · simpa [hne] using hi
    · rintro rfl
      exact hu h (by simp)
  · rintro ⟨hu, hne⟩ i
    rcases eq_or_ne i h with rfl | hi
    · simpa [hne] using hu i
    · simpa [hi] using hu i

theorem Orderly.free_take (hw : w.Orderly) (hline : w.line h = t :: ts) {u : T} :
    (∀ i, u ∉ Function.update w.line h ts i) ↔ (∀ i, u ∉ w.line i) ∨ u = t := by
  have hnd : t ∉ ts := (List.nodup_cons.mp (hline ▸ hw.nodup h)).1
  constructor
  · intro hu
    by_cases hut : u = t
    · exact Or.inr hut
    · refine Or.inl fun i hi => hu i ?_
      rcases eq_or_ne i h with rfl | hne
      · rw [hline] at hi
        simpa using (List.mem_cons.mp hi).resolve_left hut
      · simpa [hne] using hi
  · rintro (hu | rfl) i
    · rcases eq_or_ne i h with rfl | hi
      · have := hu i
        rw [hline] at this
        simpa using (not_or.mp (mt List.mem_cons.mpr this)).2
      · simpa [hi] using hu i
    · rcases eq_or_ne i h with rfl | hi
      · simpa using hnd
      · rw [Function.update_of_ne hi]
        intro hu
        exact hi (hw.apart i h u hu (by simp [hline]))

end Wakers

def wakers (H T : Type*) [DecidableEq H] : System (Wakers H T) where
  init w := w = ⟨fun _ => [], fun _ => none, []⟩
  step w w' := w.Step w'

theorem Wakers.orderly {H T : Type*} [DecidableEq H] {w : Wakers H T}
    (h : (wakers H T).Reachable w) : w.Orderly := by
  refine h.invariant (I := Orderly) ?_ fun _ _ hw hs => hw.step hs
  rintro w rfl
  refine ⟨fun _ => List.nodup_nil, fun h i t hh => absurd hh List.not_mem_nil, fun h => rfl, ?_⟩
  intro past e future t heq
  simp at heq

end OperatingSystem.Kernel
