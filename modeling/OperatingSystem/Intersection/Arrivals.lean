import OperatingSystem.Crossing
import OperatingSystem.Intersection.Ticks

/-! # The arrival cursor

`job0` reads the next start point in every tick, also when nobody is left to arrive, so
`list_index` stays inside its array only when the run is short enough. From one call
of `print_progress` to the next the handshake is a crossing as a queue, and this
queue, which knows nothing but the list, decides which lists are short enough.
-/

namespace OperatingSystem.Intersection

open Op

/-- A read of `start_point_list[i]`, or a store to `waiting_list[i]` or `passed_list[i]`. -/
inductive Access where
  | start (i : ℕ)
  | waiting (i : ℕ)
  | passed (i : ℕ)
  deriving DecidableEq, Repr

def Access.Inside : Access → Prop
  | start i => i < 20
  | waiting i => i < 20
  | passed i => i < 10

def arriveAccesses (g : Globals) : List Access :=
  .start g.listIndex :: if (readStart g).start.isSome then [.waiting g.waitingIndex] else []

def selectAccesses (g : Globals) (idx : ℕ) : List Access :=
  if (select g idx).1.key.isSome then [.waiting (select g idx).2] else []

/-- The accesses of `job0` from `print_progress` to the test of the `finish` flags. -/
def tickHeadAccesses (v : Vars) : List Access :=
  (List.range 10).map .passed ++ arriveAccesses (clearPassed (printProgress v.globals)) ++
    selectAccesses (beforeSelect v).globals (beforeSelect v).idx

def workAccesses (p : Point) (g : Globals) : List Access :=
  if g.process p + 1 = 2 then [.passed g.passedIndex] else []

def Control.accesses (c : Control) : List Access :=
  if c.done then []
  else match c.code, c.pending with
  | [], _ => tickHeadAccesses c.toVars
  | wait :: _, some p => workAccesses p c.globals
  | putBack _ :: _, _ => [.waiting c.idx]
  | _, _ => []

/-- An access of the program: `main` reads the first start point, and the threads take their
steps. -/
def Accessed (L : List Point) (a : Access) : Prop :=
  a = .start (createRandomList L).listIndex ∨
    ∃ k c, handshakeRun L k = some c ∧ a ∈ c.accesses

variable {L : List Point} {ph ph' : Phase} {c c' : Control} {x : Option Point} {a : Access}

section Frame

theorem loop_toVars (c : Control) : (loop c).toVars = tickHead c.toVars := by
  unfold loop
  dsimp only
  split <;> rfl

theorem mem_tickHeadAccesses {v : Vars} : a ∈ tickHeadAccesses v ↔
    (∃ i, i < 10 ∧ .passed i = a) ∨ a ∈ arriveAccesses (clearPassed (printProgress v.globals)) ∨
      a ∈ selectAccesses (beforeSelect v).globals (beforeSelect v).idx := by
  simp [tickHeadAccesses]

theorem beforeSelect_waitingList (v : Vars) : (beforeSelect v).globals.waitingList =
    (arrive (clearPassed (printProgress v.globals))).waitingList := by
  unfold beforeSelect restoreWhere
  split <;> rfl

theorem work_waitingList (p : Point) (g : Globals) :
    (work p g).waitingList = g.waitingList ∧ (work p g).listIndex = g.listIndex := by
  obtain ⟨jc, pl, i, pr, w, f, he⟩ := work_frame p g
  rw [he]
  exact ⟨rfl, rfl⟩

theorem accesses_loop (hd : c.done = false) (hc : c.code = []) :
    c.accesses = tickHeadAccesses c.toVars := by
  simp [Control.accesses, hd, hc]

theorem accesses_wait {p : Point} {code : List Op} (hd : c.done = false) (hc : c.code = wait :: code)
    (hp : c.pending = some p) : c.accesses = workAccesses p c.globals := by
  simp [Control.accesses, hd, hc, hp]

theorem accesses_putBack {p : Point} {code : List Op} (hd : c.done = false)
    (hc : c.code = putBack p :: code) : c.accesses = [.waiting c.idx] := by
  simp [Control.accesses, hd, hc]

end Frame

section View

theorem reduceOption_eq_nil {l : List (Option Point)} (h : ∀ v ∈ l, v = none) :
    l.reduceOption = [] :=
  List.filterMap_eq_nil_iff.mpr h

theorem reduceOption_set_free {l : List (Option Point)} {k : ℕ} {p : Point} (hk : k < l.length)
    (h : ∀ j, k ≤ j → j < l.length → l[j]? = some none) :
    (l.set k (some p)).reduceOption = l.reduceOption ++ [p] := by
  induction l generalizing k with
  | nil => cases hk
  | cons v l ih =>
    cases k with
    | zero =>
      have hnil : (v :: l).reduceOption = [] := by
        apply reduceOption_eq_nil
        intro u hu
        obtain ⟨j, hj, rfl⟩ := List.mem_iff_getElem.mp hu
        exact Option.some.inj ((List.getElem?_eq_getElem hj).symm.trans (h j (Nat.zero_le j) hj))
      have hl : l.reduceOption = [] := by
        apply reduceOption_eq_nil
        intro u hu
        exact List.filterMap_eq_nil_iff.mp hnil u (List.mem_cons_of_mem v hu)
      rw [hnil, List.set_cons_zero, List.reduceOption_cons_of_some, hl]
      rfl
    | succ k =>
      have ih := ih (Nat.lt_of_succ_lt_succ hk) fun j hj hlt =>
        h (j + 1) (Nat.succ_le_succ hj) (Nat.succ_lt_succ hlt)
      rw [List.set_cons_succ]
      cases v with
      | none => rw [List.reduceOption_cons_of_none, List.reduceOption_cons_of_none, ih]
      | some q =>
        rw [List.reduceOption_cons_of_some, List.reduceOption_cons_of_some, ih, List.cons_append]

theorem Core.arrive_waiting {g : Globals} (h : Core L none g) (hL : L.length ≤ 20) :
    (Intersection.arrive g).waitingList.reduceOption =
      g.waitingList.reduceOption ++ (L.drop g.listIndex).take 1 := by
  have htake : (L.drop g.listIndex).take 1 = L[g.listIndex]?.toList := by
    rw [List.take_one, List.head?_drop]
  have hstart : (readStart g).start = L[g.listIndex]? := by simp [readStart, h.list]
  rw [htake, ← hstart]
  cases hs : (readStart g).start with
  | none =>
    rw [arrive_none hs, Option.toList_none, List.append_nil]
    rfl
  | some p =>
    have hlt := h.waitingIndex_lt hL
    rw [← h.waiting_length] at hlt
    rw [arrive_some hs]
    exact reduceOption_set_free hlt fun j hj hj' => h.free j hj (h.waiting_length ▸ hj')

def Phase.upcoming : Phase → Option Point
  | head x => x
  | enter p _ _ => some p
  | putBack _ _ => none
  | save p _ => some p
  | leave _ x _ => x
  | done => none

def Phase.settled (v : Vars) : Phase → List (Option Point)
  | putBack p _ => v.globals.waitingList.set v.idx (some p)
  | _ => v.globals.waitingList

/-- The next call of `print_progress` sees the program as a queue. -/
def Phase.view (L : List Point) (v : Vars) (ph : Phase) : Crossing Point :=
  ⟨ph.upcoming, (ph.settled v).reduceOption, L.drop v.globals.listIndex⟩

theorem facing_notMem {q : Point} {l : List (Option Point)}
    (h : ∀ v ∈ l, faces (some q) v = false) : opposite q ∉ l.reduceOption := by
  intro hmem
  have hf := h _ (List.reduceOption_mem_iff.mp hmem)
  rw [faces_some, decide_eq_false_iff_not] at hf
  exact hf rfl

theorem select_enter (v : Vars) (g : Globals) (idx : ℕ) (hs : select v.globals v.idx = (g, idx)) :
    let ph := Phase.selected v.globals.whereAt g.key
    (ph.upcoming, (ph.settled { v with globals := g, idx := idx }).reduceOption) =
      Crossing.enter opposite v.globals.whereAt v.globals.waitingList.reduceOption := by
  obtain ⟨a, p, b, hw, hs', hfirst⟩ | ⟨hw, hs'⟩ := select_first v.globals v.idx
  · obtain ⟨rfl, rfl⟩ := Prod.mk.inj (hs.symm.trans hs')
    have hwait : v.globals.waitingList.reduceOption = a.reduceOption ++ p :: b.reduceOption := by
      rw [hw, List.reduceOption_append, List.reduceOption_cons_of_some]
    have hrest : (a ++ none :: b).reduceOption = a.reduceOption ++ b.reduceOption := by
      rw [List.reduceOption_append, List.reduceOption_cons_of_none]
    cases hx : v.globals.whereAt with
    | none =>
      have ha : a.reduceOption = [] := by
        rcases hfirst with ⟨hf, -⟩ | ⟨-, ha⟩
        · rw [hx] at hf
          cases hf
        · exact reduceOption_eq_nil ha
      simp only [Phase.selected, Phase.upcoming, Phase.settled, hwait, hrest, ha]
      rfl
    | some q =>
      simp only [hx, faces_some] at hfirst
      rcases hfirst with ⟨hf, ha⟩ | ⟨hnone, -⟩
      · obtain rfl : p = opposite q := of_decide_eq_true hf
        rw [hwait, Crossing.enter_facing (facing_notMem ha)]
        simp only [Phase.selected_some, if_true, Phase.upcoming, Phase.settled, hrest]
      · have hnot := facing_notMem hnone
        have hpq : p ≠ opposite q := by
          rintro rfl
          simp [hwait] at hnot
        rw [Crossing.enter_blocked hnot]
        simp only [Phase.selected_some, if_neg hpq, Phase.upcoming, Phase.settled]
        simp [hw]
  · obtain ⟨rfl, rfl⟩ := Prod.mk.inj (hs.symm.trans hs')
    rw [reduceOption_eq_nil hw, Crossing.enter_nil]
    cases hx : v.globals.whereAt <;>
      simp [Phase.selected, Phase.upcoming, Phase.settled, reduceOption_eq_nil hw]

theorem tickHead_listIndex (v : Vars) :
    (tickHead v).globals.listIndex = v.globals.listIndex + 1 := by
  obtain ⟨k, x, w, j, he⟩ := tickHead_frame v
  rw [he]
  rfl

theorem Rep.arrived (hL : L.length ≤ 20) (h : Rep L (.head x) c) :
    (beforeSelect c.toVars).globals.waitingList.reduceOption =
      ((Phase.head x).view L c.toVars).waiting ++
        ((Phase.head x).view L c.toVars).coming.take 1 := by
  rw [beforeSelect_waitingList, h.core.print.arrive_waiting hL]
  rfl

/-- An iteration of the loop is a tick of the queue. -/
theorem Rep.view_loop (hL : L.length ≤ 20) (h : Rep L (.head x) c) :
    (Phase.selected x (tickHead c.toVars).globals.key).view L (Intersection.loop c).toVars =
      ((Phase.head x).view L c.toVars).tick opposite := by
  have henter := select_enter (beforeSelect c.toVars) (tickHead c.toVars).globals
    (tickHead c.toVars).idx rfl
  simp only [(h.selecting hL).whereAt, h.arrived hL] at henter
  obtain ⟨hinside, hwaiting⟩ := Prod.ext_iff.mp henter
  rw [loop_toVars]
  apply Crossing.ext
  · exact hinside
  · exact hwaiting
  · change L.drop (tickHead c.toVars).globals.listIndex = (L.drop c.globals.listIndex).tail
    rw [tickHead_listIndex, List.tail_drop]

theorem Phase.selected_eq_done {key : Option Point} :
    Phase.selected x key = .done ↔ x = none ∧ key = none := by
  rcases x with - | q <;> rcases key with - | p
  · simp [Phase.selected]
  · simp [Phase.selected]
  · simp [Phase.selected]
  · rw [Phase.selected_some]
    split <;> simp

theorem Rep.selected_done (hL : L.length ≤ 20) (h : Rep L (.head x) c) :
    Phase.selected x (tickHead c.toVars).globals.key = .done ↔
      ((Phase.head x).view L c.toVars).Over := by
  have harrived := h.arrived hL
  rw [Phase.selected_eq_done]
  constructor
  · rintro ⟨hx, hkey⟩
    obtain ⟨i, p, -, hs⟩ | ⟨hw, -⟩ :=
      select_cases (beforeSelect c.toVars).globals (beforeSelect c.toVars).idx
    · simp [tickHead, hs] at hkey
    · rw [reduceOption_eq_nil hw] at harrived
      exact Crossing.over_of_inside hx harrived.symm
  · intro ho
    have hview : (Phase.head x).view L c.toVars = ⟨none, [], []⟩ := ho
    constructor
    · exact congrArg Crossing.inside hview
    · rw [hview] at harrived
      obtain ⟨i, p, hi, -⟩ | ⟨-, hs⟩ :=
        select_cases (beforeSelect c.toVars).globals (beforeSelect c.toVars).idx
      · have hmem := List.reduceOption_mem_iff.mpr (List.mem_of_getElem? hi)
        rw [harrived] at hmem
        cases hmem
      · simp only [tickHead, hs]

/-- Between two calls of `print_progress` only a vehicle that is put back changes what is waiting. -/
theorem next_frame (h : c.next = some c') (hne : c.code ≠ []) :
    c'.globals.listIndex = c.globals.listIndex ∧ c'.globals.waitingList =
      match c.code with
      | putBack p :: _ => c.globals.waitingList.set c.idx (some p)
      | _ => c.globals.waitingList := by
  cases (Control.step_of_next h).2 with
  | loop hc => exact absurd hc hne
  | signal hc => simp [hc]
  | @wait p code hc hp =>
    simp only [hc, job_eq_work]
    exact (work_waitingList p c.globals).symm
  | putBack hc => simp [hc, putBackAt]
  | saveWhere hc => simp [hc, saveWhereTemp]

theorem Rep.code_ne_nil (h : Rep L ph c) (hn : ph.Next ph') (hhead : ph.atHead = false) :
    c.code ≠ [] := by
  have hdone : ph ≠ .done := by
    rintro rfl
    cases hn
  simp [h.code_nil_iff hdone, hhead]

theorem Rep.view_next (h : Rep L ph c) (hc : c.next = some c') (hn : ph.Next ph')
    (hhead : ph.atHead = false) :
    ph'.view L c'.toVars = ph.view L c.toVars ∧ c'.globals.listIndex = c.globals.listIndex := by
  obtain ⟨hidx, hwait⟩ := next_frame hc (h.code_ne_nil hn hhead)
  rw [h.code] at hwait
  refine ⟨?_, hidx⟩
  cases hn with
  | select p => cases hhead
  | face p q => cases hhead
  | retain p q => cases hhead
  | empty q => cases hhead
  | finish => cases hhead
  | signalEnter p x =>
    cases x <;> simp_all [Phase.view, Phase.upcoming, Phase.settled, Phase.code]
  | _ => simp_all [Phase.view, Phase.upcoming, Phase.settled, Phase.code]

end View

abbrev crossingAfter (L : List Point) (k : ℕ) : Crossing Point := Crossing.after opposite L k

/-- The program is in a tick of the queue, and stops one tick after the queue is over. -/
structure Queued (L : List Point) (ph : Phase) (c : Control) : Prop where
  rep : Rep L ph c
  tick : c.globals.listIndex = c.globals.tick
  view : ph.view L c.toVars = crossingAfter L c.globals.listIndex
  ends : ph = .done ↔ (crossingAfter L (c.globals.listIndex - 1)).Over

theorem Queued.boot (hL : 1 ≤ L.length) : ∃ ph, Queued L ph (boot L) := by
  obtain ⟨p, l, rfl⟩ := List.exists_cons_of_length_pos hL
  refine ⟨_, boot_rep rfl, rfl, rfl, ?_⟩
  constructor
  · intro h
    cases h
  · intro h
    cases h

theorem Queued.next (hL : L.length ≤ 20) (h : Queued L ph c) (hc : c.next = some c') :
    ∃ ph', ph.Next ph' ∧ Queued L ph' c' := by
  cases hhead : ph.atHead with
  | true =>
    obtain ⟨x, rfl⟩ : ∃ x, ph = .head x := by
      cases ph with
      | head x => exact ⟨x, rfl⟩
      | _ => cases hhead
    obtain rfl : loop c = c' := by
      have hcode : c.code = [] := h.rep.code
      have hdone := h.rep.not_done (by simp)
      simpa [Control.next, hdone, hcode] using hc
    have hidx : (loop c).globals.listIndex = c.globals.listIndex + 1 := by
      rw [loop_toVars, tickHead_listIndex]
    refine ⟨_, .selected x _, h.rep.loop hL, ?_, ?_, ?_⟩
    · rw [hidx, h.tick, loop_toVars, (tickHead_out c.toVars).2]
    · rw [h.rep.view_loop hL, h.view, hidx]
      exact Crossing.after_succ.symm
    · rw [h.rep.selected_done hL, h.view, hidx, Nat.add_sub_cancel]
  | false =>
    obtain ⟨ph', hn, h'⟩ := h.rep.of_next hL hc
    obtain ⟨hview, hidx⟩ := h.rep.view_next hc hn hhead
    have hne : c.code ≠ [] := h.rep.code_ne_nil hn hhead
    refine ⟨ph', hn, h', ?_, ?_, ?_⟩
    · rw [hidx, h.tick, (next_out hc).2, if_neg hne]
    · rw [hview, hidx, h.view]
    · rw [hidx, ← h.ends]
      constructor
      · rintro rfl
        cases hn with
        | finish => cases hhead
      · rintro rfl
        cases hn

/-- The handshake takes the ticks of the queue. -/
theorem handshakeRun_queued (hL₀ : 1 ≤ L.length) (hL : L.length ≤ 20) {k : ℕ}
    (h : handshakeRun L k = some c) : ∃ ph, Queued L ph c := by
  induction k generalizing c with
  | zero =>
    obtain rfl := Option.some.inj h
    exact Queued.boot hL₀
  | succ k ih =>
    obtain ⟨b, hb, hc⟩ := Option.bind_eq_some_iff.mp h
    obtain ⟨ph, hph⟩ := ih hb
    obtain ⟨ph', -, hph'⟩ := hph.next hL hc
    exact ⟨ph', hph'⟩

section Bounds

theorem Core.arrive_inside {g : Globals} (h : Core L none g) (hL : L.length ≤ 20)
    (ha : a ∈ arriveAccesses g) : a = .start g.listIndex ∨ a.Inside := by
  rcases List.mem_cons.mp ha with rfl | ha
  · exact Or.inl rfl
  · split at ha
    case isTrue =>
      rw [List.mem_singleton.mp ha]
      exact Or.inr (h.waitingIndex_lt hL)
    case isFalse => cases ha

theorem Core.select_inside {g : Globals} (h : Core L none g) {idx : ℕ}
    (ha : a ∈ selectAccesses g idx) : a.Inside := by
  unfold selectAccesses at ha
  obtain ⟨i, p, hi, hs⟩ | ⟨-, hs⟩ := select_cases g idx
  · rw [hs] at ha
    rw [List.mem_singleton.mp ha]
    have hlt := (List.getElem?_eq_some_iff.mp hi).1
    rwa [h.waiting_length] at hlt
  · rw [hs] at ha
    cases ha

theorem Rep.tickHead_inside (hL : L.length ≤ 20) (h : Rep L (.head x) c)
    (ha : a ∈ tickHeadAccesses c.toVars) : a = .start c.globals.listIndex ∨ a.Inside := by
  rcases mem_tickHeadAccesses.mp ha with ⟨i, hi, rfl⟩ | ha | ha
  · exact Or.inr hi
  · exact h.core.print.arrive_inside hL ha
  · exact Or.inr ((h.selecting hL).core.select_inside ha)

theorem Rep.inside (hL : L.length ≤ 20) (h : Rep L ph c) (ha : a ∈ c.accesses) :
    (ph ≠ .done ∧ a = .start c.globals.listIndex) ∨ a.Inside := by
  by_cases hd : ph = .done
  · have hdone : c.done = true := h.done.mpr hd
    simp [Control.accesses, hdone] at ha
  · obtain ⟨c', -, hc, -, -⟩ := h.next hL hd
    obtain ⟨hdone, hstep⟩ := Control.step_of_next hc
    cases hstep with
    | loop hcode =>
      obtain ⟨x, rfl⟩ := h.atPrint ⟨hdone, hcode⟩
      rw [accesses_loop hdone hcode] at ha
      exact (h.tickHead_inside hL ha).imp (⟨hd, ·⟩) id
    | signal hcode => simp [Control.accesses, hdone, hcode] at ha
    | @wait p code hcode hp =>
      have hidx : c.globals.passedIndex = 0 := by
        have hpassed : ph.Passed c.globals := h.passed
        cases ph with
        | head x => simp [h.code, Phase.code] at hcode
        | _ => exact hpassed.1
      rw [accesses_wait hdone hcode hp, workAccesses, hidx] at ha
      split at ha
      case isTrue =>
        rw [List.mem_singleton.mp ha]
        exact Or.inr (by decide : 0 < 10)
      case isFalse => cases ha
    | putBack hcode =>
      obtain ⟨q, rfl⟩ := h.atPutBack hcode
      obtain ⟨-, hlt, -⟩ := h.locals
      rw [accesses_putBack hdone hcode] at ha
      rw [List.mem_singleton.mp ha]
      exact Or.inr (hlt.trans (h.core.waitingIndex_lt hL))
    | saveWhere hcode => simp [Control.accesses, hdone, hcode] at ha

end Bounds

theorem total_ticks (hL₀ : 1 ≤ L.length) (hL : L.length ≤ 20) :
    ∃ K c, handshakeRun L K = some c ∧ c.done = true ∧ Accessed L (.start (c.globals.tick - 1)) ∧
      ∀ k, (crossingAfter L k).Over ↔ c.globals.tick - 1 ≤ k := by
  obtain ⟨K, c, hrun, hdone⟩ := handshakeRun_done hL₀ hL
  obtain ⟨ph, h⟩ := handshakeRun_queued hL₀ hL hrun
  obtain ⟨k, b, hb, hd, hcode, rfl⟩ := handshakeRun_break hrun hdone
  obtain ⟨phb, hphb⟩ := handshakeRun_queued hL₀ hL hb
  have htick : (loop b).globals.tick - 1 = b.globals.listIndex := by
    rw [loop_toVars, (tickHead_out b.toVars).2, hphb.tick, Nat.add_sub_cancel]
  have hover : (crossingAfter L b.globals.listIndex).Over := by
    rw [← htick, ← h.tick]
    exact h.ends.mp (h.rep.done.mp hdone)
  have hnot : ¬ (crossingAfter L (b.globals.listIndex - 1)).Over := by
    rw [← hphb.ends, ← hphb.rep.done, hd]
    decide
  refine ⟨K, loop b, hrun, hdone, ?_, ?_⟩
  · rw [htick]
    refine Or.inr ⟨k, b, hb, ?_⟩
    rw [accesses_loop hd hcode, mem_tickHeadAccesses]
    exact Or.inr (Or.inl List.mem_cons_self)
  · intro j
    rw [htick]
    constructor
    · intro hj
      by_contra hlt
      exact hnot (hj.mono (by omega))
    · exact hover.mono

/-- An access is inside its array, or a read in a tick before which the queue was not over. -/
theorem accessed_cases (hL₀ : 1 ≤ L.length) (hL : L.length ≤ 20) (ha : Accessed L a) :
    (∃ i, a = .start i ∧ ¬ (crossingAfter L (i - 1)).Over) ∨ a.Inside := by
  rcases ha with rfl | ⟨k, c, hrun, ha⟩
  · exact Or.inr (by decide : 0 < 20)
  · obtain ⟨ph, h⟩ := handshakeRun_queued hL₀ hL hrun
    rcases h.rep.inside hL ha with ⟨hd, rfl⟩ | ha
    · exact Or.inl ⟨_, rfl, mt h.ends.mpr hd⟩
    · exact Or.inr ha

theorem accessed_inside (hL₀ : 1 ≤ L.length) (hL : L.length ≤ 20)
    (hover : (crossingAfter L 19).Over) (ha : Accessed L a) : a.Inside := by
  rcases accessed_cases hL₀ hL ha with ⟨i, rfl, hi⟩ | ha
  · change i < 20
    by_contra hge
    exact hi (hover.mono (by omega))
  · exact ha

theorem stores_inside (hL₀ : 1 ≤ L.length) (hL : L.length ≤ 20) (ha : Accessed L a)
    (hs : ∀ i, a ≠ .start i) : a.Inside := by
  rcases accessed_cases hL₀ hL ha with ⟨i, rfl, -⟩ | ha
  · exact absurd rfl (hs i)
  · exact ha

theorem over_of_inside (hL₀ : 1 ≤ L.length) (hL : L.length ≤ 20)
    (h : ∀ a, Accessed L a → a.Inside) : (crossingAfter L 19).Over := by
  obtain ⟨K, c, -, -, hread, hover⟩ := total_ticks hL₀ hL
  have hlt : c.globals.tick - 1 < 20 := h _ hread
  exact (hover 19).mpr (by omega)

/-- The program stays inside `start_point_list`, `waiting_list` and `passed_list` exactly on the lists
whose queue is over after 19 ticks. -/
theorem accesses_inside_iff (hL₀ : 10 ≤ L.length) (hL : L.length ≤ 15) :
    (∀ a, Accessed L a → a.Inside) ↔ (crossingAfter L 19).Over := by
  constructor
  · exact over_of_inside (by omega) (by omega)
  · intro hover a ha
    exact accessed_inside (by omega) (by omega) hover ha

/-- Ten vehicles from two facing start points. -/
theorem accesses_inside_iff_facing :
    (crossingAfter [.p1, .p3, .p1, .p3, .p1, .p3, .p1, .p3, .p1, .p3] 19).Over ∧
      ∀ a, Accessed [.p1, .p3, .p1, .p3, .p1, .p3, .p1, .p3, .p1, .p3] a → a.Inside := by
  have hover : (crossingAfter [.p1, .p3, .p1, .p3, .p1, .p3, .p1, .p3, .p1, .p3] 19).Over := by
    decide
  exact ⟨hover, (accesses_inside_iff (by decide) (by decide)).mpr hover⟩

/-- Ten vehicles from one start point take twenty ticks, and the last tick reads past the array. -/
theorem cursor_outside : ¬ ∀ L : List Point, 10 ≤ L.length → L.length ≤ 15 →
    ∀ a, Accessed L a → a.Inside := by
  intro h
  have hover := over_of_inside (L := List.replicate 10 .p1) (by decide) (by decide)
    (h _ (by decide) (by decide))
  exact absurd hover (by decide)

end OperatingSystem.Intersection
