import OperatingSystem.Intersection.Simulation

/-! # Lost wake-ups

A signal that comes before its receiver is blocked is lost, and the threads then
wait for each other for good. When every signal comes after the receiver is
blocked, the threads do not deadlock.
-/

namespace OperatingSystem.Intersection

open Pthread Op

variable {L : List Point} {s s' : Threads}

section Progress

variable {c : Control} {t : Thread}

theorem started_owned : Owned tid holds (started L) := by
  intro i
  cases i with
  | none => simp [started, tid, startStatus]
  | some p =>
    by_cases hp : L.count p = 0
    · simp [started, tid, startStatus, startPc, hp, holds]
    · simp [started, tid, startStatus, hp]

theorem Resting.blocked {r : Point} (h : Resting s r) (hs : s.status (.job r) = .blocked) :
    Blocked program s (.job r) (some r) := by
  cases h with
  | firstWait _ _ hp => exact ⟨hs, some r, by rw [hp]; rfl⟩
  | wait _ _ hp => exact ⟨hs, some r, by rw [hp]; rfl⟩
  | lastUnlock _ hs' _ => simp [hs] at hs'
  | exit _ hs' _ => simp [hs] at hs'

theorem Driving.enabled (ho : Owned tid holds s) (h : Driving s c) (hrest : ∀ r, Resting s r)
    (hfin : ∀ p code, c.code = Op.signal p :: code → s.shared.globals.finish p = false)
    (hne : ¬ Finished program s .job0) : ∃ t s', Step program s t s' ∧ Received program s t := by
  cases h with
  | firstWait _ _ hs hp => exact ⟨_, program_private.wake_enabled ho hs (by rw [hp]; rfl)⟩
  | wait _ hs hp => exact ⟨_, program_private.wake_enabled ho hs (by rw [hp]; rfl)⟩
  | unlock _ _ hs hp => exact ⟨_, unlock_enabled hs (by rw [hp]; rfl)⟩
  | lock _ _ hs hp => exact ⟨_, program_private.lock_enabled ho hs (by rw [hp]; rfl)⟩
  | @signal p code _ hc hs hp =>
    have hf := hfin p code hc
    by_cases hb : s.status (.job p) = .blocked
    · exact ⟨_, signal_enabled hs (by rw [hp]; rfl) ((hrest p).blocked hb)⟩
    · cases hrest p with
      | firstWait _ hs' _ => exact absurd hs' hb
      | wait _ hs' hp' =>
        have hr : s.status (.job p) = .ready := by
          cases hst : s.status (.job p) <;> simp_all
        exact ⟨_, block_enabled hr (by rw [hp']; rfl)⟩
      | lastUnlock hf' _ _ => simp [hf] at hf'
      | exit hf' _ _ => simp [hf] at hf'
  | exit hs hp => exact absurd ⟨hs, by rw [hp]; rfl⟩ hne

theorem Roused.enabled {p : Point} (ho : Owned tid holds s) (h : Roused s p) :
    ∃ s', Step program s (.job p) s' ∧ Received program s (.job p) := by
  cases h with
  | firstWait hs hp => exact program_private.wake_enabled ho hs (by rw [hp]; rfl)
  | wait hs hp => exact program_private.wake_enabled ho hs (by rw [hp]; rfl)
  | unlock hs hp => exact unlock_enabled hs (by rw [hp]; rfl)
  | lock hs hp => exact program_private.lock_enabled ho hs (by rw [hp]; rfl)

/-- A worker that has run its iteration signals as soon as `job0` is blocked. -/
theorem Awaiting.enabled {p : Point} {code : List Op} {last : Bool} (h : Awaiting s code)
    (hs : s.status (.job p) = .ready) (hp : s.pc (.job p) = JobPc.signal last) :
    ∃ t s', Step program s t s' ∧ Received program s t := by
  have hcall : program.call (.job p) (s.pc (.job p)) = .signal none := by rw [hp]; rfl
  cases h with
  | firstWait _ hs' hp' =>
    exact ⟨_, signal_enabled hs hcall (u := .job0) ⟨hs', none, by rw [hp']; rfl⟩⟩
  | wait hs' hp' =>
    by_cases hb : s.status .job0 = .blocked
    · exact ⟨_, signal_enabled hs hcall (u := .job0) ⟨hb, none, by rw [hp']; rfl⟩⟩
    · have hr : s.status .job0 = .ready := by
        cases hst : s.status .job0 <;> simp_all
      exact ⟨_, block_enabled hr (by rw [hp']; rfl)⟩

end Progress

/-- When no thread signals before the receiver is blocked, the threads never deadlock, and until
`job0` has finished some thread can go on in this way. -/
theorem received_deadlock_free (hL₀ : 1 ≤ L.length) (hL : L.length ≤ 20)
    (h : (receivedSystem program (started L)).Reachable s) (hne : ¬ Finished program s .job0) :
    ¬ Deadlock program s ∧ ∃ t s', Step program s t s' ∧ Received program s t := by
  obtain ⟨c, hreach, hsh, hst⟩ := (received_simulation hL₀ hL).reachable h
  obtain ⟨ph, hrep⟩ := handshake_rep hL₀ hL hreach
  have ho : Owned tid holds s := by
    refine h.invariant (I := Owned tid holds) ?_ ?_
    · rintro s rfl
      exact started_owned
    · rintro s s' ho ⟨t, hstep, -⟩
      exact program_private.owned_step ho hstep
  have hgo : ∃ t s', Step program s t s' ∧ Received program s t := by
    cases hst with
    | @start p hms hm hp hc hs hpc hsp hrest =>
      exact ⟨_, signal_enabled hms (by rw [hm]; rfl) ((hrest p).blocked hsp)⟩
    | driving hm hp hdr hrest =>
      refine hdr.enabled ho hrest (fun p code hc => ?_) hne
      rw [hsh]
      exact (hrep.signal_wait hc).1
    | roused hm hp hc ha hro hrest => exact ⟨_, hro.enabled ho⟩
    | signalling hm hp hd ha hs hpc hrest => exact ha.enabled hs hpc
  obtain ⟨t, s', hstep, hrec⟩ := hgo
  exact ⟨fun hdead => hdead.no_step hstep, t, s', hstep, hrec⟩

/-- The controller has admitted the first of two vehicles, and the worker is back in its wait. -/
theorem received_deadlock_free_two : ∃ s, (receivedSystem program (started [.p1, .p2])).Reachable s ∧
    ¬ Finished program s .job0 ∧ ¬ Deadlock program s := by
  have h : (receivedSystem program (started [.p1, .p2])).Reachable _ := .init rfl
  have h := h.tail ⟨.main, .signal (u := .job .p1) rfl rfl ⟨rfl, _, rfl⟩,
    fun _ _ hc => ⟨.job .p1, rfl, some .p1, by cases hc; rfl⟩⟩
  have h := h.tail ⟨.job .p1, .wake rfl rfl rfl, fun _ _ hc => by cases hc⟩
  have h := h.tail ⟨.job .p1, .signal (u := .job0) rfl rfl ⟨rfl, _, rfl⟩,
    fun _ _ hc => ⟨.job0, rfl, none, by cases hc; rfl⟩⟩
  have h := h.tail ⟨.job .p1, .block rfl rfl, fun _ _ hc => by cases hc⟩
  have h := h.tail ⟨.job0, .wake rfl rfl rfl, fun _ _ hc => by cases hc⟩
  refine ⟨_, h, ?_, (received_deadlock_free (by decide) (by decide) h ?_).1⟩ <;>
    exact fun hf => nomatch hf.2

theorem not_blocked_of_status {i : Option Point} (h : s.status (tid i) ≠ .blocked) :
    ∀ u, ¬ Blocked program s u i := by
  rintro u hb
  obtain rfl := blocked_tid hb
  exact h hb.1

/-- The worker of the first vehicle lets it pass and signals before `job0` has entered its wait.
The signal is lost, and the second vehicle never passes. -/
theorem deadlock_reachable : ∃ s, (system program (started [.p1, .p1])).Reachable s ∧
    ¬ Finished program s .job0 ∧ Deadlock program s ∧
    s.shared.globals.jobCount .p1 < s.shared.globals.pCount .p1 := by
  have h : (system program (started [.p1, .p1])).Reachable _ := .init rfl
  have h := h.tail ⟨.main, .signal (u := .job .p1) rfl rfl ⟨rfl, _, rfl⟩⟩
  have h := h.tail ⟨.job .p1, .wake rfl rfl rfl⟩
  have h := h.tail ⟨.job .p1, .signal (u := .job0) rfl rfl ⟨rfl, _, rfl⟩⟩
  have h := h.tail ⟨.job .p1, .block rfl rfl⟩
  have h := h.tail ⟨.job0, .wake rfl rfl rfl⟩
  have h := h.tail ⟨.job0, .signal (u := .job .p1) rfl rfl ⟨rfl, _, rfl⟩⟩
  have h := h.tail ⟨.job .p1, .wake rfl rfl rfl⟩
  have h := h.tail ⟨.job .p1, .unlock rfl rfl⟩
  have h := h.tail ⟨.job .p1, .lock rfl rfl rfl⟩
  have h := h.tail ⟨.job .p1, .drop rfl rfl (not_blocked_of_status (i := none) (by decide))⟩
  have h := h.tail ⟨.job .p1, .block rfl rfl⟩
  have h := h.tail ⟨.job0, .block rfl rfl⟩
  refine ⟨_, h, (fun hf => nomatch hf.1), fun t => ?_, by decide⟩
  cases t with
  | main => exact Or.inr (Or.inr ⟨rfl, _, rfl, fun hf => nomatch hf.1⟩)
  | job0 => exact Or.inr (Or.inl rfl)
  | job p =>
    cases p
    · exact Or.inr (Or.inl rfl)
    · exact Or.inl ⟨rfl, rfl⟩
    · exact Or.inl ⟨rfl, rfl⟩
    · exact Or.inl ⟨rfl, rfl⟩

end OperatingSystem.Intersection
