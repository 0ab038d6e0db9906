import OperatingSystem.Intersection.Invariant

/-! # The phases of the controller

Between two pthread calls `job0` is in one of a few phases, which say who is
crossing, which vehicle is in its hand, what is left of its loop iteration and
what `where` and `where_temp` hold. Every step leads from a phase to a phase, and
only the phase after the loop has no next step.
-/

namespace OperatingSystem.Intersection

open Op

/-- The abstract state of the controller. In `enter` and `leave` the flag says whether the worker
has been signalled, and the option is the other vehicle that is crossing. -/
inductive Phase where
  | head (x : Option Point)
  | enter (p : Point) (x : Option Point) (sig : Bool)
  | putBack (p q : Point)
  | save (p q : Point)
  | leave (q : Point) (x : Option Point) (sig : Bool)
  | done
  deriving DecidableEq, Repr

namespace Phase

def hand : Phase → Option Point
  | enter p _ _ => some p
  | putBack p _ => some p
  | _ => none

def Crosses : Phase → Point → Prop
  | head x, r => x = some r
  | enter _ x _, r => x = some r
  | putBack _ q, r => q = r
  | save p q, r => p = r ∨ q = r
  | leave q x _, r => q = r ∨ x = some r
  | done, _ => False

instance (ph : Phase) : DecidablePred ph.Crosses := fun r => by
  cases ph <;> unfold Crosses <;> infer_instance

def code : Phase → List Op
  | head _ => []
  | enter p none sig => (if sig then [] else [signal p]) ++ [wait]
  | enter p (some q) sig => (if sig then [] else [signal p]) ++ [wait, saveWhere, signal q, wait]
  | putBack p q => [Op.putBack p, signal q, wait]
  | save _ q => [saveWhere, signal q, wait]
  | leave q _ sig => (if sig then [] else [signal q]) ++ [wait]
  | done => []

def pending : Phase → Option Point
  | enter p _ true => some p
  | leave q _ true => some q
  | _ => none

/-- Vehicles that cross together start at opposite points. -/
def Valid : Phase → Prop
  | enter p (some q) _ => q = opposite p
  | save p q => q = opposite p
  | leave q (some x) _ => x = opposite q
  | _ => True

/-- What `where`, `where_temp`, `temp`, `idx` and `finish` hold. -/
def Locals (v : Vars) : Phase → Prop
  | head x => (if v.temp then v.globals.whereTemp else v.globals.whereAt) = x
  | enter _ x _ => v.temp = false ∧ v.globals.whereAt = x
  | putBack _ _ => v.temp = false ∧ v.idx < v.globals.waitingIndex ∧
      v.globals.waitingList[v.idx]? = some none
  | save p _ => v.temp = false ∧ v.globals.whereAt = some p
  | leave _ none _ => v.temp = false
  | leave _ (some x) _ => v.temp = true ∧ v.globals.whereTemp = some x
  | done => allFinish v.globals = true

def Passed (g : Globals) : Phase → Prop
  | head _ => True
  | _ => g.passedIndex = 0 ∧ g.passedList = List.replicate 10 none

/-- The steps from phase to phase: an iteration of the loop admits a vehicle to the empty crossing,
admits the one that faces the crossing vehicle, puts its vehicle back or finds none waiting. -/
inductive Next : Phase → Phase → Prop where
  | select (p : Point) : Next (head none) (enter p none false)
  | face (p q : Point) : Next (head (some q)) (enter p (some q) false)
  | retain (p q : Point) : Next (head (some q)) (putBack p q)
  | empty (q : Point) : Next (head (some q)) (leave q none false)
  | finish : Next (head none) done
  | signalEnter (p : Point) (x : Option Point) : Next (enter p x false) (enter p x true)
  | enterAlone (p : Point) : Next (enter p none true) (head (some p))
  | enterFacing (p q : Point) : Next (enter p (some q) true) (save p q)
  | putBack (p q : Point) : Next (putBack p q) (leave q none false)
  | save (p q : Point) : Next (save p q) (leave q (some p) false)
  | signalLeave (q : Point) (x : Option Point) : Next (leave q x false) (leave q x true)
  | leave (q : Point) (x : Option Point) : Next (leave q x true) (head x)

/-- The phase after the selection has left a start point in `key`. -/
def selected : Option Point → Option Point → Phase
  | none, none => done
  | none, some p => enter p none false
  | some q, none => leave q none false
  | some q, some p => if p = opposite q then enter p (some q) false else putBack p q

theorem selected_some (q p : Point) : selected (some q) (some p) =
    if p = opposite q then enter p (some q) false else putBack p q := rfl

theorem Next.selected (x key : Option Point) : Next (head x) (selected x key) := by
  rcases x with - | q <;> rcases key with - | p
  · exact .finish
  · exact .select p
  · exact .empty q
  · rw [selected_some]
    split
    · exact .face p q
    · exact .retain p q

end Phase

structure Rep (L : List Point) (ph : Phase) (c : Control) : Prop where
  core : Core L ph.hand c.globals
  code : c.code = ph.code
  pending : c.pending = ph.pending
  done : c.done = true ↔ ph = .done
  process : ∀ r, c.globals.process r = if ph.Crosses r then 1 else 0
  valid : ph.Valid
  locals : ph.Locals c.toVars
  passed : ph.Passed c.globals

variable {L : List Point}

theorem boot_rep {p : Point} {l : List Point} (hL : L = p :: l) :
    Rep L (.enter p none true) (boot L) := by
  subst hL
  refine ⟨⟨rfl, fun _ => rfl, fun r => ?_, fun r => ?_, ?_, ?_, ?_, fun j _ hj => ?_, fun r => ?_⟩,
    rfl, rfl, ?_, fun r => ?_, trivial, ⟨rfl, rfl⟩, ⟨rfl, rfl⟩⟩
  · simp [boot, readStart, createRandomList, List.count_cons, Phase.hand]
  · simp [boot, readStart, createRandomList, eq_comm]
  · simp [boot, readStart, createRandomList]
  · simp [boot, readStart, createRandomList]
  · simp [boot, readStart, createRandomList]
  · change (List.replicate 20 none)[j]? = some none
    rw [List.getElem?_replicate, if_pos hj]
  · simp [boot, readStart, createRandomList]
  · simp [boot]
  · simp [boot, readStart, createRandomList, Phase.Crosses]

theorem Rep.not_done {ph : Phase} {c : Control} (h : Rep L ph c) (hne : ph ≠ .done) :
    c.done = false := by
  simpa [hne] using h.done

section Head

variable {c : Control} {x : Option Point}

theorem arrive_frame (g : Globals) :
    ∃ w j, arrive g = { readStart g with waitingList := w, waitingIndex := j } := by
  unfold arrive
  dsimp only
  split
  case h_1 => exact ⟨g.waitingList, g.waitingIndex, rfl⟩
  case h_2 p _ => exact ⟨g.waitingList.set g.waitingIndex (some p), g.waitingIndex + 1, rfl⟩

theorem select_frame (g : Globals) (idx : ℕ) :
    ∃ k w, (select g idx).1 = { g with key := k, waitingList := w } := by
  obtain ⟨i, p, -, hs⟩ | ⟨-, hs⟩ := select_cases g idx
  · exact ⟨some p, g.waitingList.set i none, by rw [hs]⟩
  · exact ⟨none, g.waitingList, by rw [hs]⟩

theorem tickHead_frame (v : Vars) : ∃ k x w j, (tickHead v).globals =
    { readStart (clearPassed (printProgress v.globals)) with
      key := k, whereAt := x, waitingList := w, waitingIndex := j } := by
  obtain ⟨w, j, he⟩ := arrive_frame (clearPassed (printProgress v.globals))
  obtain ⟨x, hx⟩ : ∃ x, (beforeSelect v).globals =
      { readStart (clearPassed (printProgress v.globals)) with
        whereAt := x, waitingList := w, waitingIndex := j } := by
    unfold beforeSelect restoreWhere
    rw [he]
    split
    case isTrue => exact ⟨v.globals.whereTemp, rfl⟩
    case isFalse => exact ⟨v.globals.whereAt, rfl⟩
  obtain ⟨k, w', hs⟩ := select_frame (beforeSelect v).globals (beforeSelect v).idx
  refine ⟨k, x, w', j, ?_⟩
  change (select _ _).1 = _
  rw [hs, hx]

/-- The variables when `job0` starts to select. -/
structure Selecting (L : List Point) (x : Option Point) (v : Vars) : Prop where
  core : Core L none v.globals
  whereAt : v.globals.whereAt = x
  temp : v.temp = false
  process : ∀ r, v.globals.process r = if x = some r then 1 else 0
  passed : v.globals.passedIndex = 0 ∧ v.globals.passedList = List.replicate 10 none
  waiting : x = none → allFinish v.globals = false → ∃ p, some p ∈ v.globals.waitingList

theorem Rep.selecting (hL : L.length ≤ 20) (h : Rep L (.head x) c) :
    Selecting L x (beforeSelect c.toVars) := by
  have hcore := h.core.print.arrive hL
  have hwait : x = none → allFinish c.globals = false →
      ∃ p, some p ∈ (arrive (clearPassed (printProgress c.globals))).waitingList := by
    rintro rfl hf
    have hp : ∀ r, c.globals.process r = 0 := by simpa [Phase.Crosses] using h.process
    exact h.core.print.exists_waiting hL hp hf
  have hx : (if c.temp then c.globals.whereTemp else c.globals.whereAt) = x := h.locals
  unfold beforeSelect restoreWhere
  obtain ⟨w, j, he⟩ := arrive_frame (clearPassed (printProgress c.globals))
  rw [he] at hcore hwait ⊢
  split
  case isTrue ht =>
    rw [if_pos ht] at hx
    exact ⟨⟨hcore.list, hcore.pCount, hcore.conserve, hcore.finish, hcore.waiting_length,
      hcore.listIndex_pos, hcore.waitingIndex, hcore.free, hcore.printed⟩, hx, rfl, h.process,
      ⟨rfl, rfl⟩, hwait⟩
  case isFalse ht =>
    rw [if_neg ht] at hx
    exact ⟨hcore, hx, by simpa using ht, h.process, ⟨rfl, rfl⟩, hwait⟩

theorem loop_dispatch {v : Vars} (hv : tickHead c.toVars = v) {p : Point}
    (hp : v.globals.finish p = false) :
    loop c = { c with toVars := v, code := dispatch v.globals } := by
  have hf : allFinish v.globals = false := by
    cases p <;> simp [allFinish, hp]
  simp [loop, hv, hf]

theorem Rep.loop_admit {i : ℕ} {p : Point} (hL : L.length ≤ 20) (h : Rep L (.head x) c)
    (hi : (beforeSelect c.toVars).globals.waitingList[i]? = some (some p))
    (hs : tickHead c.toVars =
      { beforeSelect c.toVars with
        globals := { (beforeSelect c.toVars).globals with
          key := some p
          waitingList := (beforeSelect c.toVars).globals.waitingList.set i none }
        idx := i }) : Rep L (.selected x (some p)) (loop c) := by
  have hsel := h.selecting hL
  have hcore := hsel.core.take hi
  have hdone := h.not_done (by simp)
  rw [loop_dispatch hs (hcore.not_finish (Or.inl rfl)).1]
  rcases x with _ | q
  · refine ⟨hcore, ?_, h.pending, ?_, ?_, trivial, ⟨hsel.temp, hsel.whereAt⟩, hsel.passed⟩
    · simp [dispatch, hsel.whereAt, switchKey_none, switchWhere, Phase.code, Phase.selected]
    · simp [hdone, Phase.selected]
    · simpa [Phase.Crosses, Phase.selected] using hsel.process
  · rw [Phase.selected_some]
    split
    case isTrue hpq =>
      refine ⟨hcore, ?_, h.pending, ?_, ?_, ?_, ⟨hsel.temp, hsel.whereAt⟩, hsel.passed⟩
      · simp [dispatch, hsel.whereAt, switchKey_some, switchWhere_some, Phase.code, hpq]
      · simp [hdone]
      · simpa [Phase.Crosses] using hsel.process
      · simp [Phase.Valid, hpq]
    case isFalse hpq =>
      refine ⟨hcore, ?_, h.pending, ?_, ?_, trivial,
        ⟨hsel.temp, hsel.core.lt_waitingIndex hi, ?_⟩, hsel.passed⟩
      · simp [dispatch, hsel.whereAt, switchKey_some, switchWhere_some, Phase.code, hpq]
      · simp [hdone]
      · simpa [Phase.Crosses] using hsel.process
      · obtain ⟨hlt, -⟩ := List.getElem?_eq_some_iff.mp hi
        simp [hlt]

theorem Rep.loop_idle (hL : L.length ≤ 20) (h : Rep L (.head x) c)
    (hw : ∀ v ∈ (beforeSelect c.toVars).globals.waitingList, v = none)
    (hs : tickHead c.toVars =
      { beforeSelect c.toVars with
        globals := { (beforeSelect c.toVars).globals with key := none } }) :
    Rep L (.selected x none) (loop c) := by
  have hsel := h.selecting hL
  have hcore : Core L none { (beforeSelect c.toVars).globals with key := none } :=
    ⟨hsel.core.list, hsel.core.pCount, hsel.core.conserve, hsel.core.finish,
      hsel.core.waiting_length, hsel.core.listIndex_pos, hsel.core.waitingIndex, hsel.core.free,
      hsel.core.printed⟩
  have hdone := h.not_done (by simp)
  rcases x with _ | q
  · have hf : allFinish (beforeSelect c.toVars).globals = true := by
      by_contra hf
      obtain ⟨p, hp⟩ := hsel.waiting rfl (by simpa using hf)
      exact absurd (hw _ hp) (by simp)
    have hloop : Intersection.loop c = { c with toVars := tickHead c.toVars, done := true } := by
      simp only [Intersection.loop, hs]
      exact if_pos hf
    rw [hloop, hs]
    exact ⟨hcore, h.code, h.pending, by simp [Phase.selected], hsel.process, trivial, hf,
      hsel.passed⟩
  · have hq : (beforeSelect c.toVars).globals.process q ≠ 0 := by simp [hsel.process]
    rw [loop_dispatch hs (hcore.not_finish (Or.inr (Or.inl hq))).1]
    refine ⟨hcore, ?_, h.pending, ?_, ?_, trivial, hsel.temp, hsel.passed⟩
    · simp [dispatch, hsel.whereAt, switchKey, switchWhere_some, Phase.code, Phase.selected]
    · simp [hdone, Phase.selected]
    · simpa [Phase.Crosses, Phase.selected] using hsel.process

theorem Rep.loop (hL : L.length ≤ 20) (h : Rep L (.head x) c) :
    Rep L (.selected x (tickHead c.toVars).globals.key) (loop c) := by
  obtain ⟨i, p, hi, hs⟩ | ⟨hw, hs⟩ :=
    select_cases (beforeSelect c.toVars).globals (beforeSelect c.toVars).idx
  · have hkey : (tickHead c.toVars).globals.key = some p := by simp only [tickHead, hs]
    rw [hkey]
    exact h.loop_admit hL hi (by simp only [tickHead, hs])
  · have hkey : (tickHead c.toVars).globals.key = none := by simp only [tickHead, hs]
    rw [hkey]
    exact h.loop_idle hL hw (by simp only [tickHead, hs])

end Head

section Steps

variable {c : Control} {p q : Point} {x : Option Point}

theorem Rep.signal_enter (h : Rep L (.enter p x false) c) :
    ∃ c', c.next = some c' ∧ Rep L (.enter p x true) c' := by
  have hdone := h.not_done (by simp)
  have hfin := (h.core.not_finish (Or.inl rfl)).1
  obtain ⟨code, hcode, hcode'⟩ : ∃ code, c.code = signal p :: code ∧
      code = (Phase.enter p x true).code := by
    rw [h.code]
    cases x <;> exact ⟨_, rfl, rfl⟩
  refine ⟨{ c with pending := signalled c.globals p, code := code }, ?_, h.core, hcode', ?_, ?_,
    h.process, ?_, h.locals, h.passed⟩
  · simp [Control.next, hdone, hcode]
  · simp [signalled, hfin, Phase.pending]
  · simp [hdone]
  · cases x
    · trivial
    · exact h.valid

theorem Rep.signal_leave (h : Rep L (.leave q x false) c) :
    ∃ c', c.next = some c' ∧ Rep L (.leave q x true) c' := by
  have hdone := h.not_done (by simp)
  have hq : c.globals.process q ≠ 0 := by simp [h.process, Phase.Crosses]
  have hfin := (h.core.not_finish (Or.inr (Or.inl hq))).1
  refine ⟨{ c with pending := signalled c.globals q, code := [wait] }, ?_, h.core, rfl, ?_, ?_,
    h.process, ?_, ?_, h.passed⟩
  · simp [Control.next, hdone, h.code, Phase.code]
  · simp [signalled, hfin, Phase.pending]
  · simp [hdone]
  · cases x
    · trivial
    · exact h.valid
  · cases x <;> exact h.locals

theorem Rep.run_enter (h : Rep L (.enter p x true) c) :
    ∃ c' ph, c.next = some c' ∧ Phase.Next (.enter p x true) ph ∧ Rep L ph c' := by
  have hdone := h.not_done (by simp)
  obtain ⟨htemp, hwhere⟩ := h.locals
  have hx : x ≠ some p := by
    rintro rfl
    exact opposite_ne p h.valid.symm
  have hp : c.globals.process p = 0 := by simp [h.process, Phase.Crosses, hx]
  have hwork := work_enter hp (h.core.not_finish (Or.inl rfl)).2
  have hcore := h.core.enter hp
  obtain ⟨code, hcode, htail⟩ : ∃ code, c.code = wait :: code ∧
      (Phase.enter p x true).code = wait :: code := by
    rw [h.code]
    cases x <;> exact ⟨_, rfl, rfl⟩
  have hnext : c.next =
      some { c with globals := work p c.globals, pending := none, code := code } := by
    simp [Control.next, hdone, hcode, h.pending, Phase.pending]
  have hproc : ∀ r, (work p c.globals).process r = if r = p ∨ x = some r then 1 else 0 := by
    intro r
    rw [hwork]
    rcases eq_or_ne r p with rfl | hr
    · simp
    · simp [h.process, Phase.Crosses, hr]
  have hpass : (work p c.globals).passedIndex = 0 ∧
      (work p c.globals).passedList = List.replicate 10 none := by
    rw [hwork]
    exact h.passed
  have hat : (work p c.globals).whereAt = some p := by rw [hwork]
  rcases x with _ | q
  · refine ⟨_, .head (some p), hnext, .enterAlone p, hcore, ?_, rfl, ?_, ?_, trivial, ?_, trivial⟩
    · exact (List.cons.inj htail).2.symm
    · simp [hdone]
    · simpa [Phase.Crosses, eq_comm] using hproc
    · simp [Phase.Locals, htemp, hat]
  · refine ⟨_, .save p q, hnext, .enterFacing p q, hcore, ?_, rfl, ?_, ?_, h.valid, ⟨htemp, hat⟩,
      hpass⟩
    · exact (List.cons.inj htail).2.symm
    · simp [hdone]
    · simpa [Phase.Crosses, eq_comm] using hproc

theorem Rep.run_putBack (h : Rep L (.putBack p q) c) :
    ∃ c', c.next = some c' ∧ Rep L (.leave q none false) c' := by
  have hdone := h.not_done (by simp)
  obtain ⟨htemp, hlt, hslot⟩ := h.locals
  refine ⟨{ c with toVars := putBackAt c.toVars p, code := [signal q, wait] }, ?_,
    h.core.putBack hlt hslot, rfl, h.pending, ?_, ?_, trivial, htemp, h.passed⟩
  · simp [Control.next, hdone, h.code, Phase.code]
  · simp [hdone]
  · simpa [putBackAt, Phase.Crosses] using h.process

theorem Rep.run_save (h : Rep L (.save p q) c) :
    ∃ c', c.next = some c' ∧ Rep L (.leave q (some p) false) c' := by
  have hdone := h.not_done (by simp)
  obtain ⟨-, hwhere⟩ := h.locals
  refine ⟨{ c with toVars := saveWhereTemp c.toVars, code := [signal q, wait] }, ?_,
    ⟨h.core.list, h.core.pCount, h.core.conserve, h.core.finish, h.core.waiting_length,
      h.core.listIndex_pos, h.core.waitingIndex, h.core.free, h.core.printed⟩, rfl, h.pending, ?_,
    ?_, ?_, ⟨rfl, hwhere⟩, h.passed⟩
  · simp [Control.next, hdone, h.code, Phase.code]
  · simp [hdone]
  · simpa [saveWhereTemp, Phase.Crosses, or_comm] using h.process
  · have hv : q = opposite p := h.valid
    simp [Phase.Valid, hv]

theorem Rep.run_leave (h : Rep L (.leave q x true) c) :
    ∃ c', c.next = some c' ∧ Rep L (.head x) c' := by
  have hdone := h.not_done (by simp)
  have hq : c.globals.process q = 1 := by simp [h.process, Phase.Crosses]
  have hcore := h.core.leave hq h.passed.1 h.passed.2
  have hwork := work_leave hq
  have hx : x ≠ some q := by
    rintro rfl
    exact opposite_ne q h.valid.symm
  refine ⟨{ c with globals := work q c.globals, pending := none, code := [] }, ?_, hcore, rfl, rfl,
    ?_, ?_, trivial, ?_, trivial⟩
  · simp [Control.next, hdone, h.code, Phase.code, h.pending, Phase.pending]
  · simp [hdone]
  · intro r
    rw [hwork]
    rcases eq_or_ne r q with rfl | hr
    · simp [Phase.Crosses, hx]
    · simp [Function.update_of_ne hr, h.process, Phase.Crosses, hr.symm]
  · rw [hwork]
    cases x with
    | none =>
      have ht : c.temp = false := h.locals
      simp [Phase.Locals, ht]
    | some r =>
      obtain ⟨ht, hw⟩ : c.temp = true ∧ c.globals.whereTemp = some r := h.locals
      simp [Phase.Locals, ht, hw]

end Steps

/-- Only the phase after the loop has no next step, and every step leads to a next phase. -/
theorem Rep.next {ph : Phase} {c : Control} (hL : L.length ≤ 20) (h : Rep L ph c)
    (hne : ph ≠ .done) : ∃ c' ph', c.next = some c' ∧ ph.Next ph' ∧ Rep L ph' c' := by
  have hdone := h.not_done hne
  cases ph with
  | head x =>
    refine ⟨_, _, ?_, .selected x _, h.loop hL⟩
    simp [Control.next, hdone, h.code, Phase.code]
  | enter p x sig =>
    cases sig with
    | false =>
      obtain ⟨c', hc, h'⟩ := h.signal_enter
      exact ⟨c', _, hc, .signalEnter p x, h'⟩
    | true => exact h.run_enter
  | putBack p q =>
    obtain ⟨c', hc, h'⟩ := h.run_putBack
    exact ⟨c', _, hc, .putBack p q, h'⟩
  | save p q =>
    obtain ⟨c', hc, h'⟩ := h.run_save
    exact ⟨c', _, hc, .save p q, h'⟩
  | leave q x sig =>
    cases sig with
    | false =>
      obtain ⟨c', hc, h'⟩ := h.signal_leave
      exact ⟨c', _, hc, .signalLeave q x, h'⟩
    | true =>
      obtain ⟨c', hc, h'⟩ := h.run_leave
      exact ⟨c', _, hc, .leave q x, h'⟩
  | done => exact absurd rfl hne

theorem Rep.of_next {ph : Phase} {c c' : Control} (hL : L.length ≤ 20) (h : Rep L ph c)
    (hc : c.next = some c') : ∃ ph', ph.Next ph' ∧ Rep L ph' c' := by
  have hne : ph ≠ .done := by
    rintro rfl
    simp [Control.next, h.done.mpr rfl] at hc
  obtain ⟨c'', ph', hc', hn, h'⟩ := h.next hL hne
  obtain rfl : c'' = c' := Option.some.inj (hc'.symm.trans hc)
  exact ⟨ph', hn, h'⟩

/-- Every reachable state of the program represents a phase. -/
theorem handshake_rep (hL₀ : 1 ≤ L.length) (hL : L.length ≤ 20) {c : Control}
    (h : (handshake L).Reachable c) : ∃ ph, Rep L ph c := by
  refine h.invariant (I := fun c => ∃ ph, Rep L ph c) ?_ ?_
  · rintro c rfl
    obtain ⟨p, l, rfl⟩ := List.exists_cons_of_length_pos hL₀
    exact ⟨_, boot_rep rfl⟩
  · rintro c c' ⟨ph, hrep⟩ hstep
    obtain ⟨ph', -, hrep'⟩ := hrep.of_next hL hstep
    exact ⟨ph', hrep'⟩

end OperatingSystem.Intersection
