import OperatingSystem.Intersection.Phases
import OperatingSystem.Intersection.Threads

/-! # The threads simulate the handshake

In the interleavings in which every signal comes after its receiver is blocked,
exactly one thread acts at a time: `job0`, or the worker it has signalled. The
threads then go through the states of the synchronous handshake.
-/

namespace OperatingSystem.Intersection

open Pthread Op

variable {L : List Point} {s s' : Threads}

/-- The program points at which a thread holds its mutex; `job0` keeps it when it exits. -/
def holds : ∀ t, Pc t → Bool
  | .main, _ => false
  | .job0, Job0Pc.lock => false
  | .job0, _ => true
  | .job _, JobPc.lock => false
  | .job _, JobPc.exit => false
  | .job _, _ => true

theorem holds_toCall (v : Vars) (code : List Op) : holds .job0 (toCall v code).1 = true := by
  induction code generalizing v with
  | nil => rfl
  | cons op code ih =>
    cases op with
    | signal p => rfl
    | wait => rfl
    | putBack p => exact ih _
    | saveWhere => exact ih _

theorem holds_job0Body (v : Vars) : holds .job0 (job0Body v).1 = true := by
  unfold job0Body
  dsimp only
  split
  case isTrue => rfl
  case isFalse => exact holds_toCall _ _

theorem tid_injective : Function.Injective tid := by
  intro i j h
  cases i <;> cases j <;> cases h <;> rfl

/-- Every mutex is used by one thread only. -/
theorem program_private : Private program tid holds where
  injective := tid_injective
  lock := by
    intro t p m h
    cases t <;> cases p <;> cases h
    · exact ⟨rfl, rfl, holds_job0Body⟩
    · exact ⟨rfl, rfl, fun _ => rfl⟩
  unlock := by
    intro t p m h
    cases t <;> cases p <;> cases h <;> exact ⟨rfl, rfl, fun _ => rfl⟩
  wait := by
    intro t p c m h
    cases t <;> cases p <;> cases h
    · exact ⟨rfl, rfl, holds_job0Body⟩
    · exact ⟨rfl, rfl, fun v => holds_toCall v _⟩
    · exact ⟨rfl, rfl, fun _ => rfl⟩
    · exact ⟨rfl, rfl, fun _ => rfl⟩
  signal := by
    intro t p c h
    cases t <;> cases p <;> cases h
    · exact fun _ => rfl
    · exact fun v => holds_toCall v _
    · rename_i last
      cases last <;> exact fun _ => rfl
  join := by
    intro t p u h
    cases t <;> cases p <;> cases h
    rename_i i
    exact fun _ => rfl

theorem blocked_tid {u : Thread} {i : Option Point} (h : Blocked program s u i) : u = tid i := by
  obtain ⟨-, m, hc⟩ := h
  generalize s.pc u = pc at hc
  cases u <;> cases pc <;> cases hc <;> rfl

section Control

variable {ph : Phase} {c : Control} {p : Point} {code : List Op}

theorem Rep.wait_pending (h : Rep L ph c) (hc : c.code = wait :: code) :
    ∃ p, c.pending = some p := by
  rw [h.code] at hc
  rw [h.pending]
  cases ph with
  | head x => simp [Phase.code] at hc
  | enter p x sig => cases x <;> cases sig <;> simp [Phase.code, Phase.pending] at hc ⊢
  | putBack p q => simp [Phase.code] at hc
  | save p q => simp [Phase.code] at hc
  | leave q x sig => cases sig <;> simp [Phase.code, Phase.pending] at hc ⊢
  | done => simp [Phase.code] at hc

theorem Rep.signal_wait (h : Rep L ph c) (hc : c.code = signal p :: code) :
    c.globals.finish p = false ∧ ∃ rest, code = wait :: rest := by
  rw [h.code] at hc
  cases ph with
  | head x => simp [Phase.code] at hc
  | enter q x sig =>
    have hf := (h.core.not_finish (Or.inl rfl)).1
    cases x <;> cases sig <;> simp [Phase.code] at hc
    · obtain ⟨rfl, rfl⟩ := hc
      exact ⟨hf, _, rfl⟩
    · obtain ⟨rfl, rfl⟩ := hc
      exact ⟨hf, _, rfl⟩
  | putBack q r => simp [Phase.code] at hc
  | save q r => simp [Phase.code] at hc
  | leave q x sig =>
    have hq : c.globals.process q ≠ 0 := by simp [h.process, Phase.Crosses]
    cases sig <;> simp [Phase.code] at hc
    obtain ⟨rfl, rfl⟩ := hc
    exact ⟨(h.core.not_finish (Or.inr (Or.inl hq))).1, _, rfl⟩
  | done => simp [Phase.code] at hc

theorem toCall_steps (hd : c.done = false) (hc : c.code = code) :
    ∃ c', Relation.ReflTransGen (handshake L).step c c' ∧ c'.done = false ∧
      c'.pending = c.pending ∧ c'.globals.finish = c.globals.finish ∧
      (toCall c.toVars code = (.unlock, c'.toVars) ∧ c'.code = [] ∨
        (∃ p rest, toCall c.toVars code = (.signal p rest, c'.toVars) ∧
          c'.code = signal p :: rest) ∨
        ∃ rest, toCall c.toVars code = (.wait rest, c'.toVars) ∧ c'.code = wait :: rest) := by
  induction code generalizing c with
  | nil => exact ⟨c, .refl, hd, rfl, rfl, Or.inl ⟨rfl, hc⟩⟩
  | cons op code ih =>
    cases op with
    | signal p => exact ⟨c, .refl, hd, rfl, rfl, Or.inr (Or.inl ⟨p, code, rfl, hc⟩)⟩
    | wait => exact ⟨c, .refl, hd, rfl, rfl, Or.inr (Or.inr ⟨code, rfl, hc⟩)⟩
    | putBack p =>
      have hstep : (handshake L).step c { c with toVars := putBackAt c.toVars p, code := code } := by
        simp [handshake, Control.next, hd, hc]
      obtain ⟨c', hr, h⟩ :=
        ih (c := { c with toVars := putBackAt c.toVars p, code := code }) hd rfl
      exact ⟨c', .head hstep hr, h⟩
    | saveWhere =>
      have hstep : (handshake L).step c { c with toVars := saveWhereTemp c.toVars, code := code } := by
        simp [handshake, Control.next, hd, hc]
      obtain ⟨c', hr, h⟩ :=
        ih (c := { c with toVars := saveWhereTemp c.toVars, code := code }) hd rfl
      exact ⟨c', .head hstep hr, h⟩

theorem tickHead_finish (v : Vars) : (tickHead v).globals.finish = v.globals.finish := by
  obtain ⟨k, x, w, j, he⟩ := tickHead_frame v
  rw [he]
  rfl

theorem work_finish_of_ne {q : Point} (g : Globals) (h : q ≠ p) :
    (work p g).finish q = g.finish q := by
  unfold work
  dsimp only
  split_ifs <;> simp [h]

end Control

/-- A worker that has not been signalled: in its wait or about to enter it, or past its last
vehicle. -/
inductive Resting (s : Threads) (r : Point) : Prop where
  | firstWait : s.shared.globals.finish r = false → s.status (.job r) = .blocked →
      s.pc (.job r) = JobPc.firstWait → Resting s r
  | wait : s.shared.globals.finish r = false → s.status (.job r) ≠ .woken →
      s.pc (.job r) = JobPc.wait → Resting s r
  | lastUnlock : s.shared.globals.finish r = true → s.status (.job r) = .ready →
      s.pc (.job r) = JobPc.lastUnlock → Resting s r
  | exit : s.shared.globals.finish r = true → s.status (.job r) = .ready →
      s.pc (.job r) = JobPc.exit → Resting s r

/-- A worker that has been signalled and has not run its iteration. -/
inductive Roused (s : Threads) (p : Point) : Prop where
  | firstWait : s.status (.job p) = .woken → s.pc (.job p) = JobPc.firstWait → Roused s p
  | wait : s.status (.job p) = .woken → s.pc (.job p) = JobPc.wait → Roused s p
  | unlock : s.status (.job p) = .ready → s.pc (.job p) = JobPc.unlock → Roused s p
  | lock : s.status (.job p) = .ready → s.pc (.job p) = JobPc.lock → Roused s p

/-- `job0` is in its wait or about to enter it. -/
inductive Awaiting (s : Threads) (code : List Op) : Prop where
  | firstWait : code = [] → s.status .job0 = .blocked → s.pc .job0 = Job0Pc.firstWait →
      Awaiting s code
  | wait : s.status .job0 ≠ .woken → s.pc .job0 = Job0Pc.wait code → Awaiting s code

/-- `job0` is between the return of a wait and its next signal, or done. -/
inductive Driving (s : Threads) (c : Control) : Prop where
  | firstWait : c.done = false → c.code = [] → s.status .job0 = .woken →
      s.pc .job0 = Job0Pc.firstWait → Driving s c
  | wait : c.done = false → s.status .job0 = .woken → s.pc .job0 = Job0Pc.wait c.code → Driving s c
  | unlock : c.done = false → c.code = [] → s.status .job0 = .ready →
      s.pc .job0 = Job0Pc.unlock → Driving s c
  | lock : c.done = false → c.code = [] → s.status .job0 = .ready →
      s.pc .job0 = Job0Pc.lock → Driving s c
  | signal {p : Point} {code : List Op} : c.done = false → c.code = signal p :: code →
      s.status .job0 = .ready → s.pc .job0 = Job0Pc.signal p code → Driving s c
  | exit : s.status .job0 = .ready → s.pc .job0 = Job0Pc.exit → Driving s c

/-- Where the threads are when the handshake is in the given state. -/
inductive Stage (s : Threads) (c : Control) : Prop where

  | start {p : Point} : s.status .main = .ready → s.pc .main = MainPc.signal p →
      c.pending = some p → c.code = [wait] → s.status .job0 = .blocked →
      s.pc .job0 = Job0Pc.firstWait → s.status (.job p) = .blocked → (∀ r, Resting s r) → Stage s c

  | driving : (∀ p, s.pc .main ≠ MainPc.signal p) → c.pending = none → Driving s c →
      (∀ r, Resting s r) → Stage s c

  | roused {p : Point} {code : List Op} : (∀ p, s.pc .main ≠ MainPc.signal p) →
      c.pending = some p → c.code = wait :: code → Awaiting s code → Roused s p →
      (∀ r, r ≠ p → Resting s r) → Stage s c

  | signalling {p : Point} : (∀ p, s.pc .main ≠ MainPc.signal p) → c.pending = none →
      c.done = false → Awaiting s c.code → s.status (.job p) = .ready →
      s.pc (.job p) = JobPc.signal (s.shared.globals.finish p) →
      (∀ r, r ≠ p → Resting s r) → Stage s c

structure Moves (s s' : Threads) (t : Thread) : Prop where
  pc : ∀ u, u ≠ t → s'.pc u = s.pc u
  status : ∀ u, u ≠ t → s'.status u = s.status u

section Frames

variable {c : Control} {r p : Point} {code : List Op} {t : Thread}

theorem Resting.frame (h : Resting s r) (hm : Moves s s' t) (ht : .job r ≠ t)
    (hf : s'.shared.globals.finish r = s.shared.globals.finish r) : Resting s' r := by
  have hs := hm.status _ ht
  have hp := hm.pc _ ht
  cases h with
  | firstWait h₁ h₂ h₃ => exact .firstWait (hf.trans h₁) (hs.trans h₂) (hp.trans h₃)
  | wait h₁ h₂ h₃ => exact .wait (hf.trans h₁) (hs ▸ h₂) (hp.trans h₃)
  | lastUnlock h₁ h₂ h₃ => exact .lastUnlock (hf.trans h₁) (hs.trans h₂) (hp.trans h₃)
  | exit h₁ h₂ h₃ => exact .exit (hf.trans h₁) (hs.trans h₂) (hp.trans h₃)

theorem Roused.frame (h : Roused s p) (hm : Moves s s' t) (ht : .job p ≠ t) : Roused s' p := by
  have hs := hm.status _ ht
  have hp := hm.pc _ ht
  cases h with
  | firstWait h₁ h₂ => exact .firstWait (hs.trans h₁) (hp.trans h₂)
  | wait h₁ h₂ => exact .wait (hs.trans h₁) (hp.trans h₂)
  | unlock h₁ h₂ => exact .unlock (hs.trans h₁) (hp.trans h₂)
  | lock h₁ h₂ => exact .lock (hs.trans h₁) (hp.trans h₂)

theorem Awaiting.frame (h : Awaiting s code) (hm : Moves s s' t) (ht : .job0 ≠ t) :
    Awaiting s' code := by
  have hs := hm.status _ ht
  have hp := hm.pc _ ht
  cases h with
  | firstWait h₁ h₂ h₃ => exact .firstWait h₁ (hs.trans h₂) (hp.trans h₃)
  | wait h₁ h₂ => exact .wait (hs ▸ h₁) (hp.trans h₂)

theorem Driving.frame (h : Driving s c) (hm : Moves s s' t) (ht : .job0 ≠ t) : Driving s' c := by
  have hs := hm.status _ ht
  have hp := hm.pc _ ht
  cases h with
  | firstWait hd hc h₁ h₂ => exact .firstWait hd hc (hs.trans h₁) (hp.trans h₂)
  | wait hd h₁ h₂ => exact .wait hd (hs.trans h₁) (hp.trans h₂)
  | unlock hd hc h₁ h₂ => exact .unlock hd hc (hs.trans h₁) (hp.trans h₂)
  | lock hd hc h₁ h₂ => exact .lock hd hc (hs.trans h₁) (hp.trans h₂)
  | signal hd hc h₁ h₂ => exact .signal hd hc (hs.trans h₁) (hp.trans h₂)
  | exit h₁ h₂ => exact .exit (hs.trans h₁) (hp.trans h₂)

theorem Moves.main (hm : Moves s s' t) (ht : .main ≠ t) (h : ∀ p, s.pc .main ≠ MainPc.signal p) :
    ∀ p, s'.pc .main ≠ MainPc.signal p := by
  rw [hm.pc _ ht]
  exact h

/-- The workers rest while one of them moves and rests again. -/
theorem Moves.resting {q : Point} (hm : Moves s s' (.job r)) (hsh : s'.shared = s.shared)
    (hr : Resting s' r) (hq : Resting s q) : Resting s' q := by
  rcases eq_or_ne q r with rfl | hne
  · exact hr
  · exact hq.frame hm (by simpa using hne) (by rw [hsh])

theorem Moves.advance : Moves s (s.advance program t) t :=
  ⟨fun _ hu => by simp [hu], fun _ hu => by simp [hu]⟩

theorem Moves.advance_owner {i : Option Point} {o : Option Thread} :
    Moves s ((s.setOwner i o).advance program t) t :=
  ⟨fun _ hu => by simp [hu], fun _ hu => by simp [hu]⟩

theorem Moves.block {i : Option Point} {o : Option Thread} {a : Status} :
    Moves s ((s.setOwner i o).setStatus t a) t :=
  ⟨fun _ _ => rfl, fun _ hu => by simp [hu]⟩

theorem Moves.setStatus {a : Status} : Moves s (s.setStatus t a) t :=
  ⟨fun _ _ => rfl, fun _ hu => by simp [hu]⟩

end Frames

section Moves

variable {r p : Point} {code : List Op}

theorem Resting.step (h : Resting s r) (hstep : Step program s (.job r) s') :
    Resting s' r ∧ s'.shared = s.shared ∧ Moves s s' (.job r) := by
  cases h with
  | firstWait hf hs hp => exact absurd hs hstep.not_blocked
  | wait hf hs hp =>
    obtain ⟨-, rfl⟩ | ⟨hw, -⟩ := hstep.of_wait (c := some r) (m := some r) (by rw [hp]; rfl)
    · exact ⟨.wait hf (by simp) hp, rfl, .block⟩
    · exact absurd hw hs
  | lastUnlock hf hs hp =>
    obtain rfl := hstep.of_unlock (m := some r) (by rw [hp]; rfl)
    have hr : program.resume (.job r) (s.pc (.job r)) s.shared = (JobPc.exit, s.shared) := by
      rw [hp]; rfl
    have hsh := State.advance_shared_of (s := s.setOwner (some r) none) hr
    exact ⟨.exit (hsh ▸ hf) (by simp) (State.advance_pc_of hr), hsh, .advance_owner⟩
  | exit hf hs hp => exact (hstep.of_exit (by rw [hp]; rfl)).elim

theorem Resting.rouse (h : Resting s r) (hs : s.status (.job r) = .blocked) :
    Roused (s.setStatus (.job r) .woken) r := by
  cases h with
  | firstWait _ _ hp => exact .firstWait (by simp) hp
  | wait _ _ hp => exact .wait (by simp) hp
  | lastUnlock _ hs' _ => simp [hs] at hs'
  | exit _ hs' _ => simp [hs] at hs'

theorem Awaiting.step (h : Awaiting s code) (hstep : Step program s .job0 s') :
    Awaiting s' code ∧ s'.shared = s.shared ∧ Moves s s' .job0 := by
  cases h with
  | firstWait hc hs hp => exact absurd hs hstep.not_blocked
  | wait hs hp =>
    obtain ⟨-, rfl⟩ | ⟨hw, -⟩ := hstep.of_wait (c := none) (m := none) (by rw [hp]; rfl)
    · exact ⟨.wait (by simp) hp, rfl, .block⟩
    · exact absurd hw hs

theorem main_step (h : ∀ p, s.pc .main ≠ MainPc.signal p) (hstep : Step program s .main s') :
    (∀ p, s'.pc .main ≠ MainPc.signal p) ∧ s'.shared = s.shared ∧ Moves s s' .main := by
  generalize hp : s.pc .main = pc at h
  cases pc with
  | signal p => exact absurd rfl (h p)
  | join i =>
    obtain rfl := hstep.of_join (u := tid i) (by rw [hp]; rfl)
    refine ⟨fun p => ?_, rfl, .advance⟩
    rw [State.advance_pc_self, hp]
    cases i with
    | none => exact fun h => nomatch h
    | some q => cases q <;> exact fun h => nomatch h
  | exit => exact (hstep.of_exit (by rw [hp]; rfl)).elim

end Moves

section Simulation

variable {c : Control} {t : Thread}

def Sim (s : Threads) (c : Control) : Prop := s.shared = c.toVars ∧ Stage s c

theorem start_step {p : Point} (hsh : s.shared = c.toVars) (hm : s.pc .main = MainPc.signal p)
    (hp : c.pending = some p) (hc : c.code = [wait]) (hs0 : s.status .job0 = .blocked)
    (hp0 : s.pc .job0 = Job0Pc.firstWait) (hsp : s.status (.job p) = .blocked)
    (hrest : ∀ r, Resting s r) (hms : s.status .main = .ready) (hstep : Step program s t s')
    (hrec : Received program s t) : Sim s' c := by
  cases t with
  | main =>
    obtain ⟨u, hb, rfl⟩ := hstep.of_signal hrec (c := some p) (by rw [hm]; rfl)
    obtain rfl : u = .job p := blocked_tid hb
    have hr : program.resume .main (s.pc .main) s.shared = (MainPc.join none, s.shared) := by
      rw [hm]; rfl
    have hmv : Moves (s.setStatus (.job p) .woken) _ .main := .advance
    refine ⟨hsh, .roused (p := p) ?_ hp hc (.firstWait rfl ?_ ?_) ?_ ?_⟩
    · intro q
      rw [State.advance_pc_self, State.setStatus_pc, State.setStatus_shared, hr]
      exact fun h => nomatch h
    · simpa using hs0
    · simpa using hp0
    · exact ((hrest p).rouse hsp).frame hmv (by simp)
    · intro r hrp
      exact ((hrest r).frame .setStatus (by simpa using hrp) rfl).frame hmv (by simp) rfl
  | job0 => exact absurd hs0 hstep.not_blocked
  | job r =>
    obtain ⟨hr, hsh', hmv⟩ := (hrest r).step hstep
    have hrp : Thread.job p ≠ .job r := by
      intro he
      exact hstep.not_blocked (he ▸ hsp)
    refine ⟨hsh'.trans hsh, .start (p := p) ?_ ?_ hp hc ?_ ?_ ?_ ?_⟩
    · rw [hmv.status _ (by simp), hms]
    · rw [hmv.pc _ (by simp), hm]
    · rw [hmv.status _ (by simp), hs0]
    · rw [hmv.pc _ (by simp), hp0]
    · rw [hmv.status _ hrp, hsp]
    · exact fun q => hmv.resting hsh' hr (hrest q)

theorem Driving.of_toCall {code : List Op} (hreach : (handshake L).Reachable c)
    (hL₀ : 1 ≤ L.length) (hL : L.length ≤ 20) (hd : c.done = false) (hp : c.pending = none)
    (hc : c.code = code) (hs : s'.status .job0 = .ready)
    (hpc : s'.pc .job0 = (toCall c.toVars code).1) (hsh : s'.shared = (toCall c.toVars code).2) :
    ∃ c', Relation.ReflTransGen (handshake L).step c c' ∧ s'.shared = c'.toVars ∧
      c'.pending = none ∧ c'.globals.finish = c.globals.finish ∧ Driving s' c' := by
  obtain ⟨c', hr, hd', hp', hf, ⟨ht, hc'⟩ | ⟨p, rest, ht, hc'⟩ | ⟨rest, ht, hc'⟩⟩ :=
    toCall_steps (L := L) hd hc
  · rw [ht] at hpc hsh
    exact ⟨c', hr, hsh, hp'.trans hp, hf, .unlock hd' hc' hs hpc⟩
  · rw [ht] at hpc hsh
    exact ⟨c', hr, hsh, hp'.trans hp, hf, .signal hd' hc' hs hpc⟩
  · obtain ⟨ph, hrep⟩ := handshake_rep hL₀ hL (hreach.trans hr)
    obtain ⟨q, hq⟩ := hrep.wait_pending hc'
    simp [hp', hp] at hq

theorem Driving.of_body (hreach : (handshake L).Reachable c)
    (hL₀ : 1 ≤ L.length) (hL : L.length ≤ 20) (hd : c.done = false) (hp : c.pending = none)
    (hc : c.code = []) (hs : s'.status .job0 = .ready)
    (hpc : s'.pc .job0 = (job0Body c.toVars).1) (hsh : s'.shared = (job0Body c.toVars).2) :
    ∃ c', Relation.ReflTransGen (handshake L).step c c' ∧ s'.shared = c'.toVars ∧
      c'.pending = none ∧ c'.globals.finish = c.globals.finish ∧ Driving s' c' := by
  have hstep : (handshake L).step c (loop c) := by simp [handshake, Control.next, hd, hc]
  unfold job0Body at hpc hsh
  dsimp only at hpc hsh
  split at hpc
  case isTrue hf =>
    rw [if_pos hf] at hsh
    have hloop : loop c = { c with toVars := tickHead c.toVars, done := true } := by
      simp [loop, hf]
    rw [hloop] at hstep
    exact ⟨_, .single hstep, hsh, hp, tickHead_finish _, .exit hs hpc⟩
  case isFalse hf =>
    rw [if_neg hf] at hsh
    have hloop : loop c =
        { c with toVars := tickHead c.toVars, code := dispatch (tickHead c.toVars).globals } := by
      simp [loop, hf]
    rw [hloop] at hstep
    obtain ⟨c', hr, h₁, h₂, h₃, h₄⟩ := Driving.of_toCall (hreach.tail hstep) hL₀ hL hd hp rfl hs hpc hsh
    exact ⟨c', .head hstep hr, h₁, h₂, h₃.trans (tickHead_finish _), h₄⟩

theorem Stage.of_driving {i : Option Point} {o : Option Thread} (hsh : s.shared = c.toVars)
    (hm : ∀ p, s.pc .main ≠ MainPc.signal p) (hrest : ∀ r, Resting s r)
    (hs' : s' = (s.setOwner i o).advance program .job0)
    (h : ∃ c', Relation.ReflTransGen (handshake L).step c c' ∧ s'.shared = c'.toVars ∧
      c'.pending = none ∧ c'.globals.finish = c.globals.finish ∧ Driving s' c') :
    ∃ c', Relation.ReflTransGen (handshake L).step c c' ∧ Sim s' c' := by
  obtain ⟨c', hr, hsh', hp, hf, hdr⟩ := h
  have hmv : Moves s s' .job0 := hs' ▸ .advance_owner
  have hfin : s'.shared.globals.finish = s.shared.globals.finish := by rw [hsh', hsh, hf]
  refine ⟨c', hr, hsh', .driving ?_ hp hdr fun r => (hrest r).frame hmv (by simp) (by rw [hfin])⟩
  exact hmv.main (by simp) hm

theorem signal_step {p : Point} {code : List Op} (hreach : (handshake L).Reachable c)
    (hL₀ : 1 ≤ L.length) (hL : L.length ≤ 20) (hsh : s.shared = c.toVars)
    (hm : ∀ p, s.pc .main ≠ MainPc.signal p) (hd : c.done = false) (hc : c.code = signal p :: code)
    (hpc : s.pc .job0 = Job0Pc.signal p code) (hrest : ∀ r, Resting s r)
    (hstep : Step program s .job0 s') (hrec : Received program s .job0) :
    ∃ c', Relation.ReflTransGen (handshake L).step c c' ∧ Sim s' c' := by
  obtain ⟨ph, hrep⟩ := handshake_rep hL₀ hL hreach
  obtain ⟨hf, rest, rfl⟩ := hrep.signal_wait hc
  obtain ⟨u, hb, rfl⟩ := hstep.of_signal hrec (c := some p) (by rw [hpc]; rfl)
  obtain rfl : u = .job p := blocked_tid hb
  have hr : program.resume .job0 (s.pc .job0) s.shared = (Job0Pc.wait rest, s.shared) := by
    rw [hpc]; rfl
  have hmv : Moves (s.setStatus (.job p) .woken) _ .job0 := .advance
  have hnext : (handshake L).step c { c with pending := some p, code := wait :: rest } := by
    simp [handshake, Control.next, hd, hc, signalled, hf]
  refine ⟨_, .single hnext, ?_, .roused (p := p) ?_ rfl rfl (.wait ?_ ?_) ?_ ?_⟩
  · simpa [hr] using hsh
  · exact hmv.main (by simp) hm
  · simp
  · simp [hr]
  · exact ((hrest p).rouse hb.1).frame hmv (by simp)
  · intro r hrp
    exact ((hrest r).frame .setStatus (by simpa using hrp) rfl).frame hmv (by simp)
      (by simp [hr])

theorem driving_step (hreach : (handshake L).Reachable c) (hL₀ : 1 ≤ L.length) (hL : L.length ≤ 20)
    (hsh : s.shared = c.toVars) (hm : ∀ p, s.pc .main ≠ MainPc.signal p) (hp : c.pending = none)
    (hdr : Driving s c) (hrest : ∀ r, Resting s r) (hstep : Step program s t s')
    (hrec : Received program s t) :
    ∃ c', Relation.ReflTransGen (handshake L).step c c' ∧ Sim s' c' := by
  cases t with
  | main =>
    obtain ⟨hm', hsh', hmv⟩ := main_step hm hstep
    exact ⟨c, .refl, hsh'.trans hsh, .driving hm' hp (hdr.frame hmv (by simp))
      fun r => (hrest r).frame hmv (by simp) (by rw [hsh'])⟩
  | job r =>
    obtain ⟨hr, hsh', hmv⟩ := (hrest r).step hstep
    refine ⟨c, .refl, hsh'.trans hsh, .driving ?_ hp (hdr.frame hmv (by simp)) ?_⟩
    · exact hmv.main (by simp) hm
    · exact fun q => hmv.resting hsh' hr (hrest q)
  | job0 =>
    cases hdr with
    | firstWait hd hc hs hpc =>
      obtain ⟨hs', -⟩ | ⟨-, rfl⟩ := hstep.of_wait (c := none) (m := none) (by rw [hpc]; rfl)
      · simp [hs] at hs'
      · have hr : program.resume .job0 (s.pc .job0) s.shared = job0Body c.toVars := by
          rw [hpc, hsh]; rfl
        exact Stage.of_driving hsh hm hrest rfl
          (Driving.of_body hreach hL₀ hL hd hp hc (by simp) (by simp [hr]) (by simp [hr]))
    | wait hd hs hpc =>
      obtain ⟨hs', -⟩ | ⟨-, rfl⟩ := hstep.of_wait (c := none) (m := none) (by rw [hpc]; rfl)
      · simp [hs] at hs'
      · have hr : program.resume .job0 (s.pc .job0) s.shared = toCall c.toVars c.code := by
          rw [hpc, hsh]; rfl
        exact Stage.of_driving hsh hm hrest rfl
          (Driving.of_toCall hreach hL₀ hL hd hp rfl (by simp) (by simp [hr]) (by simp [hr]))
    | unlock hd hc hs hpc =>
      obtain rfl := hstep.of_unlock (m := none) (by rw [hpc]; rfl)
      have hr : program.resume .job0 (s.pc .job0) s.shared = (Job0Pc.lock, s.shared) := by
        rw [hpc]; rfl
      exact Stage.of_driving hsh hm hrest rfl
        ⟨c, .refl, by simpa [hr] using hsh, hp, rfl, .lock hd hc (by simp) (by simp [hr])⟩
    | lock hd hc hs hpc =>
      obtain rfl := hstep.of_lock (m := none) (by rw [hpc]; rfl)
      have hr : program.resume .job0 (s.pc .job0) s.shared = job0Body c.toVars := by
        rw [hpc, hsh]; rfl
      exact Stage.of_driving hsh hm hrest rfl
        (Driving.of_body hreach hL₀ hL hd hp hc (by simp) (by simp [hr]) (by simp [hr]))
    | signal hd hc hs hpc => exact signal_step hreach hL₀ hL hsh hm hd hc hpc hrest hstep hrec
    | exit hs hpc => exact (hstep.of_exit (by rw [hpc]; rfl)).elim

theorem job_body {p : Point} {code : List Op} {i : Option Point} {o : Option Thread}
    (hreach : (handshake L).Reachable c) (hL₀ : 1 ≤ L.length) (hL : L.length ≤ 20)
    (hsh : s.shared = c.toVars) (hm : ∀ p, s.pc .main ≠ MainPc.signal p)
    (hp : c.pending = some p) (hc : c.code = wait :: code) (ha : Awaiting s code)
    (hrest : ∀ r, r ≠ p → Resting s r)
    (hr : program.resume (.job p) (s.pc (.job p)) s.shared = jobBody p s.shared) :
    ∃ c', Relation.ReflTransGen (handshake L).step c c' ∧
      Sim ((s.setOwner i o).advance program (.job p)) c' := by
  obtain ⟨ph, hrep⟩ := handshake_rep hL₀ hL hreach
  have hd : c.done = false := by
    rw [Bool.eq_false_iff]
    intro hd
    have := hrep.pending
    simp [hrep.done.mp hd, Phase.pending, hp] at this
  have hnext : (handshake L).step c
      { c with globals := work p c.globals, pending := none, code := code } := by
    simp [handshake, Control.next, hd, hc, hp]
  obtain ⟨ph', hrep'⟩ := handshake_rep hL₀ hL (hreach.tail hnext)
  have hfin : decide ((work p c.globals).jobCount p = (work p c.globals).pCount p) =
      (work p c.globals).finish p := by
    have h₁ := hrep'.core.finish p
    have h₂ := hrep'.core.pCount p
    dsimp only at h₁ h₂
    rw [Bool.eq_iff_iff, decide_eq_true_iff, h₁, h₂]
  have hmv : Moves s ((s.setOwner i o).advance program (.job p)) (.job p) := .advance_owner
  have hshared : ((s.setOwner i o).advance program (.job p)).shared =
      { c.toVars with globals := work p c.globals } := by
    rw [State.advance_shared, State.setOwner_pc, State.setOwner_shared, hr, hsh]
    simp only [jobBody, job_eq_work]
  refine ⟨_, .single hnext, hshared, .signalling (p := p) ?_ rfl hd (ha.frame hmv (by simp))
    (by simp) ?_ fun r hrp => (hrest r hrp).frame hmv (by simpa using hrp) ?_⟩
  · exact hmv.main (by simp) hm
  · rw [hshared, ← hfin, State.advance_pc_self, State.setOwner_pc, State.setOwner_shared, hr, hsh]
    simp only [jobBody, job_eq_work]
  · rw [hshared, hsh]
    exact work_finish_of_ne _ hrp

theorem roused_on {p : Point} {code : List Op} {i : Option Point} {o : Option Thread} {pc : JobPc}
    (hsh : s.shared = c.toVars) (hm : ∀ p, s.pc .main ≠ MainPc.signal p)
    (hp : c.pending = some p) (hc : c.code = wait :: code) (ha : Awaiting s code)
    (hrest : ∀ r, r ≠ p → Resting s r)
    (hr : program.resume (.job p) (s.pc (.job p)) s.shared = (pc, s.shared))
    (hro : ∀ {s' : Threads}, s'.status (.job p) = .ready → s'.pc (.job p) = pc → Roused s' p) :
    ∃ c', Relation.ReflTransGen (handshake L).step c c' ∧
      Sim ((s.setOwner i o).advance program (.job p)) c' := by
  have hmv : Moves s ((s.setOwner i o).advance program (.job p)) (.job p) := .advance_owner
  refine ⟨c, .refl, by simpa [hr] using hsh, .roused (hmv.main (by simp) hm) hp hc
    (ha.frame hmv (by simp)) (hro (by simp) (by simp [hr])) fun r hrp => ?_⟩
  exact (hrest r hrp).frame hmv (by simpa using hrp) (by simp [hr])

theorem roused_step {p : Point} {code : List Op} (hreach : (handshake L).Reachable c)
    (hL₀ : 1 ≤ L.length) (hL : L.length ≤ 20) (hsh : s.shared = c.toVars)
    (hm : ∀ p, s.pc .main ≠ MainPc.signal p) (hp : c.pending = some p) (hc : c.code = wait :: code)
    (ha : Awaiting s code) (hro : Roused s p) (hrest : ∀ r, r ≠ p → Resting s r)
    (hstep : Step program s t s') :
    ∃ c', Relation.ReflTransGen (handshake L).step c c' ∧ Sim s' c' := by
  cases t with
  | main =>
    obtain ⟨hm', hsh', hmv⟩ := main_step hm hstep
    exact ⟨c, .refl, hsh'.trans hsh, .roused hm' hp hc (ha.frame hmv (by simp))
      (hro.frame hmv (by simp)) fun r hr => (hrest r hr).frame hmv (by simp) (by rw [hsh'])⟩
  | job0 =>
    obtain ⟨ha', hsh', hmv⟩ := ha.step hstep
    exact ⟨c, .refl, hsh'.trans hsh, .roused (hmv.main (by simp) hm) hp hc ha'
      (hro.frame hmv (by simp)) fun r hr => (hrest r hr).frame hmv (by simp) (by rw [hsh'])⟩
  | job r =>
    rcases eq_or_ne r p with rfl | hrp
    · cases hro with
      | firstWait hs hpc =>
        obtain ⟨hs', -⟩ | ⟨-, rfl⟩ := hstep.of_wait (c := some r) (m := some r) (by rw [hpc]; rfl)
        · simp [hs] at hs'
        · exact job_body hreach hL₀ hL hsh hm hp hc ha hrest (by rw [hpc]; rfl)
      | wait hs hpc =>
        obtain ⟨hs', -⟩ | ⟨-, rfl⟩ := hstep.of_wait (c := some r) (m := some r) (by rw [hpc]; rfl)
        · simp [hs] at hs'
        · exact roused_on hsh hm hp hc ha hrest (by rw [hpc]; rfl) .unlock
      | unlock hs hpc =>
        obtain rfl := hstep.of_unlock (m := some r) (by rw [hpc]; rfl)
        exact roused_on hsh hm hp hc ha hrest (by rw [hpc]; rfl) .lock
      | lock hs hpc =>
        obtain rfl := hstep.of_lock (m := some r) (by rw [hpc]; rfl)
        exact job_body hreach hL₀ hL hsh hm hp hc ha hrest (by rw [hpc]; rfl)
    · obtain ⟨hr, hsh', hmv⟩ := (hrest r hrp).step hstep
      refine ⟨c, .refl, hsh'.trans hsh, .roused (hmv.main (by simp) hm) hp hc
        (ha.frame hmv (by simp)) (hro.frame hmv (by simpa using hrp.symm)) ?_⟩
      exact fun q hqp => hmv.resting hsh' hr (hrest q hqp)

theorem signalling_step {p : Point} (hsh : s.shared = c.toVars)
    (hm : ∀ p, s.pc .main ≠ MainPc.signal p) (hp : c.pending = none) (hd : c.done = false)
    (ha : Awaiting s c.code) (hs : s.status (.job p) = .ready)
    (hpc : s.pc (.job p) = JobPc.signal (s.shared.globals.finish p))
    (hrest : ∀ r, r ≠ p → Resting s r) (hstep : Step program s t s')
    (hrec : Received program s t) : Sim s' c := by
  cases t with
  | main =>
    obtain ⟨hm', hsh', hmv⟩ := main_step hm hstep
    refine ⟨hsh'.trans hsh, .signalling (p := p) hm' hp hd (ha.frame hmv (by simp)) ?_ ?_
      fun r hr => (hrest r hr).frame hmv (by simp) (by rw [hsh'])⟩
    · rw [hmv.status _ (by simp), hs]
    · rw [hmv.pc _ (by simp), hsh', hpc]
  | job0 =>
    obtain ⟨ha', hsh', hmv⟩ := ha.step hstep
    refine ⟨hsh'.trans hsh, .signalling (p := p) (hmv.main (by simp) hm) hp hd ha'
      ?_ ?_ fun r hr => (hrest r hr).frame hmv (by simp) (by rw [hsh'])⟩
    · rw [hmv.status _ (by simp), hs]
    · rw [hmv.pc _ (by simp), hsh', hpc]
  | job r =>
    rcases eq_or_ne r p with rfl | hrp
    · obtain ⟨u, hb, rfl⟩ := hstep.of_signal hrec (c := none) (by rw [hpc]; rfl)
      obtain rfl : u = .job0 := blocked_tid hb
      have hr : program.resume (.job r) (s.pc (.job r)) s.shared =
          (if s.shared.globals.finish r then JobPc.lastUnlock else JobPc.wait, s.shared) := by
        rw [hpc]; rfl
      have hmv : Moves (s.setStatus .job0 .woken) _ (.job r) := .advance
      refine ⟨by simpa [hr] using hsh, .driving ?_ hp ?_ fun q => ?_⟩
      · exact hmv.main (by simp) hm
      · cases ha with
        | firstWait hc _ h₀ => exact .firstWait hd hc (by simp) (by simpa using h₀)
        | wait _ h₀ => exact .wait hd (by simp) (by simpa using h₀)
      · rcases eq_or_ne q r with rfl | hq
        · cases hf : s.shared.globals.finish q with
          | false =>
            rw [hf] at hr
            exact .wait (by simpa [hr] using hf) (by simp) (by simp [hr])
          | true =>
            rw [hf] at hr
            exact .lastUnlock (by simpa [hr] using hf) (by simp) (by simp [hr])
        · exact ((hrest q hq).frame .setStatus (by simp) rfl).frame hmv (by simpa using hq)
            (by simp [hr])
    · obtain ⟨hr, hsh', hmv⟩ := (hrest r hrp).step hstep
      have hne : Thread.job p ≠ .job r := by simpa using hrp.symm
      refine ⟨hsh'.trans hsh, .signalling (p := p) (hmv.main (by simp) hm) hp hd
        (ha.frame hmv (by simp)) ?_ ?_ ?_⟩
      · rw [hmv.status _ hne, hs]
      · rw [hmv.pc _ hne, hsh', hpc]
      · exact fun q hqp => hmv.resting hsh' hr (hrest q hqp)

theorem started_sim (hL₀ : 1 ≤ L.length) : Sim (started L) (boot L) := by
  obtain ⟨p, l, rfl⟩ := List.exists_cons_of_length_pos hL₀
  refine ⟨rfl, .start (p := p) rfl rfl rfl rfl rfl rfl ?_ fun r => ?_⟩
  · simp [started, startStatus]
  · by_cases hr : (p :: l).count r = 0
    · exact .exit (by simpa [started, readStart, createRandomList] using hr)
        (by simp [started, startStatus, hr]) (by simp [started, startPc, hr])
    · exact .firstWait (by simpa [started, readStart, createRandomList] using hr)
        (by simp [started, startStatus, hr]) (by simp [started, startPc, hr])

/-- The threads follow the handshake when no thread signals before the receiver is blocked. -/
theorem received_simulation (hL₀ : 1 ≤ L.length) (hL : L.length ≤ 20) :
    (receivedSystem program (started L)).Simulation (handshake L) Sim where
  init := by
    rintro s rfl
    exact ⟨boot L, rfl, started_sim hL₀⟩
  step := by
    rintro s s' c hreach ⟨hsh, hst⟩ ⟨t, hstep, hrec⟩
    cases hst with
    | start hms hm hp hc hs hpc hsp hrest =>
      exact ⟨c, .refl, start_step hsh hm hp hc hs hpc hsp hrest hms hstep hrec⟩
    | driving hm hp hdr hrest =>
      exact driving_step hreach hL₀ hL hsh hm hp hdr hrest hstep hrec
    | roused hm hp hc ha hro hrest =>
      exact roused_step hreach hL₀ hL hsh hm hp hc ha hro hrest hstep
    | signalling hm hp hd ha hs hpc hrest =>
      exact ⟨c, .refl, signalling_step hsh hm hp hd ha hs hpc hrest hstep hrec⟩

end Simulation

end OperatingSystem.Intersection
