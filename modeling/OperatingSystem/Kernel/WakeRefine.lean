import Mathlib.Algebra.Order.BigOperators.Group.Finset
import OperatingSystem.Kernel.Wakers

/-! # Wake-up queues keep lines of tasks

The links in the tasks and the heads represent one line a context, whatever other
contexts do between two of its accesses. The claim of a task, not the write of the
link to it, is what puts it into the line.
-/

namespace OperatingSystem.Kernel

variable {H T : Type*}

/-- How a head and the links represent the line of its owner, and the task taken from it. -/
def Tied (next : T → Link T) (head : WakeQHead T) (pc : WakeQPc T) (line : List T)
    (due : Option T) : Prop :=
  match pc with
  | .idle | .getTask _ | .putTask _ =>
    Chain next head.first line ∧ head.lastp = line.getLast? ∧ due = none
  | .store task _ => ∃ ts, line = ts ++ [task] ∧ Chain next head.first ts ∧
      head.lastp = ts.getLast? ∧ next task = .tail ∧ due = none
  | .advance task _ => ∃ ts, line = ts ++ [task] ∧ Chain next head.first line ∧ due = none
  | .loop node | .drop _ node => Chain next node line ∧ due = none
  | .unlink task node => ∃ ts, line = task :: ts ∧ Chain next node ts ∧ due = none
  | .wake task node => Chain next node line ∧ due = some task
  | .done => line = [] ∧ due = none

theorem Tied.congr {next next' : T → Link T} {head : WakeQHead T} {pc : WakeQPc T}
    {line : List T} {due : Option T} (h : Tied next head pc line due)
    (hn : ∀ t ∈ line, next' t = next t) : Tied next' head pc line due := by
  cases pc with
  | idle | getTask task | putTask task => exact ⟨h.1.congr hn, h.2⟩
  | store task call =>
    obtain ⟨ts, rfl, hc, hl, ht, hd⟩ := h
    exact ⟨ts, rfl, hc.congr fun t ht => hn t (by simp [ht]), hl, by rwa [hn task (by simp)], hd⟩
  | advance task call =>
    obtain ⟨ts, hl, hc, hd⟩ := h
    exact ⟨ts, hl, hc.congr hn, hd⟩
  | loop node | drop task node | wake task node => exact ⟨h.1.congr hn, h.2⟩
  | unlink task node =>
    obtain ⟨ts, rfl, hc, hd⟩ := h
    exact ⟨ts, rfl, hc.congr fun t ht => hn t (by simp [ht]), hd⟩
  | done => exact h

variable [DecidableEq T]

def held (pc : WakeQPc T) (line : List T) (t : T) : ℕ :=
  line.count t + match pc with
    | .putTask task | .wake task _ | .drop task _ => if task = t then 1 else 0
    | _ => 0

variable [DecidableEq H] [Fintype H]

/-- The memory shows the lines. A task is free while it is in none, and its references are those
of the lines and those outside. -/
structure Shows (s : WakeQ H T × List (WakeEvent H T)) (w : Wakers H T) : Prop where
  log : w.log = s.2
  tied : ∀ h, Tied s.1.next (s.1.head h) (s.1.pc h) (w.line h) (w.due h)
  free : ∀ t, s.1.next t = .null ↔ ∀ h, t ∉ w.line h
  usage : ∀ t, s.1.usage t = s.1.refs t + ∑ h, held (s.1.pc h) (w.line h) t

section Step

variable {m m' : WakeQ H T} {w w' : Wakers H T} {log log' : List (WakeEvent H T)} {h : H} {t : T}
  {node : Link T} {call : WakeQCall}

/-- A step of one context leaves the lines of the others alone. -/
theorem Shows.of_head (hs : Shows (m, log) w) (hlog : w'.log = log')
    (hother : ∀ i, i ≠ h → m'.head i = m.head i ∧ m'.pc i = m.pc i ∧ w'.line i = w.line i ∧
      w'.due i = w.due i ∧ ∀ t ∈ w.line i, m'.next t = m.next t)
    (htied : Tied m'.next (m'.head h) (m'.pc h) (w'.line h) (w'.due h))
    (hfree : ∀ t, m'.next t = .null ↔ ∀ i, t ∉ w'.line i)
    (husage : ∀ t, m'.usage t + m.refs t + held (m.pc h) (w.line h) t =
      m.usage t + m'.refs t + held (m'.pc h) (w'.line h) t) : Shows (m', log') w' := by
  refine ⟨hlog, fun i => ?_, hfree, fun t => ?_⟩
  · rcases eq_or_ne i h with rfl | hi
    · exact htied
    · obtain ⟨hhead, hpc, hline, hdue, hnext⟩ := hother i hi
      dsimp only
      rw [hhead, hpc, hline, hdue]
      exact (hs.tied i).congr hnext
  · have hrest : ∑ i ∈ Finset.univ.erase h, held (m'.pc i) (w'.line i) t =
        ∑ i ∈ Finset.univ.erase h, held (m.pc i) (w.line i) t := by
      apply Finset.sum_congr rfl
      intro i hi
      obtain ⟨-, hpc, hline, -, -⟩ := hother i (Finset.ne_of_mem_erase hi)
      rw [hpc, hline]
    have hold := Finset.add_sum_erase Finset.univ (fun i => held (m.pc i) (w.line i) t)
      (Finset.mem_univ h)
    have hnew := Finset.add_sum_erase Finset.univ (fun i => held (m'.pc i) (w'.line i) t)
      (Finset.mem_univ h)
    have hu := hs.usage t
    have := husage t
    dsimp only at hold hnew hu ⊢
    omega

theorem Shows.quiet (hs : Shows (m, log) w) (hnext : m'.next = m.next)
    (hother : ∀ i, i ≠ h → m'.head i = m.head i ∧ m'.pc i = m.pc i)
    (htied : Tied m.next (m'.head h) (m'.pc h) (w.line h) (w.due h))
    (husage : ∀ t, m'.usage t + m.refs t + held (m.pc h) (w.line h) t =
      m.usage t + m'.refs t + held (m'.pc h) (w.line h) t) : Shows (m', log ++ []) w := by
  refine hs.of_head (h := h) ?_ (fun i hi => ?_) ?_ (fun t => ?_) husage
  · rw [List.append_nil]
    exact hs.log
  · exact ⟨(hother i hi).1, (hother i hi).2, rfl, rfl, fun t _ => by rw [hnext]⟩
  · rw [hnext]
    exact htied
  · rw [hnext]
    exact hs.free t

/-- The claim of a free task appends it to the line. -/
theorem Shows.claim (hs : Shows (m, log) w) (hpc : m.pc h = .idle) (hnull : m.next t = .null)
    (hrefs : 0 < m.refs t) :
    Shows (((m.setNext t .tail).setRefs t (m.usage t) (m.refs t - 1)).setPc h (.store t call),
        log ++ [.queued h t])
      ⟨Function.update w.line h (w.line h ++ [t]), w.due, w.log ++ [.queued h t]⟩ := by
  have hnew := (hs.free t).mp hnull
  obtain ⟨hc, hl, hd⟩ : Tied m.next (m.head h) .idle (w.line h) (w.due h) := hpc ▸ hs.tied h
  refine hs.of_head (h := h) (by simp [hs.log]) (fun i hi => ?_) ?_ (fun u => ?_) fun u => ?_
  · refine ⟨rfl, by simp [WakeQ.setPc, WakeQ.setRefs, WakeQ.setNext, hi], by simp [hi], rfl,
      fun u hu => ?_⟩
    exact Function.update_of_ne (ne_of_mem_of_not_mem hu (hnew i)) _ _
  · dsimp only [WakeQ.setPc]
    rw [Function.update_self, Function.update_self]
    exact ⟨w.line h, rfl, hc.update (hnew h), hl, Function.update_self _ _ _, hd⟩
  · rw [Wakers.free_queue, ← hs.free u]
    rcases eq_or_ne u t with rfl | hu
    · simp [WakeQ.setPc, WakeQ.setRefs, WakeQ.setNext]
    · simp [WakeQ.setPc, WakeQ.setRefs, WakeQ.setNext, hu]
  · rcases eq_or_ne u t with rfl | hu
    · simp [WakeQ.setPc, WakeQ.setRefs, WakeQ.setNext, hpc, held]
      omega
    · simp [WakeQ.setPc, WakeQ.setRefs, WakeQ.setNext, hpc, held, hu, hu.symm]

theorem Shows.storeLast (hs : Shows (m, log) w) (hw : w.Orderly) (hpc : m.pc h = .store t call) :
    Shows ((m.storeLast h t).setPc h (.advance t call), log ++ []) w := by
  obtain ⟨ts, hline, hc, hl, ht, hd⟩ :
    Tied m.next (m.head h) (.store t call) (w.line h) (w.due h) := hpc ▸ hs.tied h
  have hnd : (ts ++ [t]).Nodup := hline ▸ hw.nodup h
  unfold WakeQ.storeLast
  split
  case h_1 hlast =>
    -- the line was empty, and `lastp` points to the head
    obtain rfl : ts = [] := List.getLast?_eq_none_iff.mp (hl ▸ hlast)
    refine hs.quiet (h := h) rfl (fun i hi => ?_) ?_ fun u => ?_
    · simp [WakeQ.setPc, WakeQ.setHead, hi]
    · dsimp only [WakeQ.setPc, WakeQ.setHead]
      rw [Function.update_self, Function.update_self]
      refine ⟨[], hline, ?_, hd⟩
      rw [hline]
      exact ⟨rfl, ht⟩
    · simp [WakeQ.setPc, WakeQ.setHead, hpc, held]
  case h_2 last hlast =>
    obtain ⟨us, rfl⟩ := List.getLast?_eq_some_iff.mp (hl ▸ hlast)
    have hmem : last ∈ w.line h := by simp [hline]
    refine hs.of_head (h := h) ?_ (fun i hi => ?_) ?_ (fun u => ?_) fun u => ?_
    · rw [List.append_nil]
      exact hs.log
    · refine ⟨rfl, by simp [WakeQ.setPc, WakeQ.setNext, hi], rfl, rfl, fun u hu => ?_⟩
      refine Function.update_of_ne ?_ _ _
      rintro rfl
      exact hi (hw.apart i h u hu hmem)
    · dsimp only [WakeQ.setPc, WakeQ.setNext]
      rw [Function.update_self, hline]
      refine ⟨us ++ [last], rfl, ?_, hd⟩
      obtain ⟨hus, -, hdis⟩ := List.nodup_append.mp hnd
      exact hc.append hus (fun hm => hdis t hm t (by simp) rfl) ht
    · rw [← hs.free u]
      rcases eq_or_ne u last with rfl | hu
      · have := hc.linked (a := u) (by simp)
        simp [WakeQ.setPc, WakeQ.setNext, this]
      · simp [WakeQ.setPc, WakeQ.setNext, hu]
    · simp [WakeQ.setPc, WakeQ.setNext, hpc, held]

theorem Shows.unlink (hs : Shows (m, log) w) (hw : w.Orderly) (hpc : m.pc h = .unlink t node) :
    ∃ w', w.Step w' ∧ Shows ((m.setNext t .null).setPc h (.wake t node), log ++ []) w' := by
  obtain ⟨ts, hline, hc, hd⟩ :
    Tied m.next (m.head h) (.unlink t node) (w.line h) (w.due h) := hpc ▸ hs.tied h
  have hnd : (t :: ts).Nodup := hline ▸ hw.nodup h
  refine ⟨_, .take hline hd, hs.of_head (h := h) ?_ (fun i hi => ?_) ?_ (fun u => ?_) fun u => ?_⟩
  · rw [List.append_nil]
    exact hs.log
  · refine ⟨rfl, by simp [WakeQ.setPc, WakeQ.setNext, hi], by simp [hi], by simp [hi],
      fun u hu => ?_⟩
    refine Function.update_of_ne ?_ _ _
    rintro rfl
    exact hi (hw.apart i h u hu (by simp [hline]))
  · dsimp only [WakeQ.setPc, WakeQ.setNext]
    rw [Function.update_self, Function.update_self, Function.update_self]
    exact ⟨hc.update (List.nodup_cons.mp hnd).1, rfl⟩
  · rw [hw.free_take hline, ← hs.free u]
    rcases eq_or_ne u t with rfl | hu
    · simp [WakeQ.setPc, WakeQ.setNext]
    · simp [WakeQ.setPc, WakeQ.setNext, hu]
  · simp [WakeQ.setPc, WakeQ.setNext, hpc, held, hline, List.count_cons]

theorem Shows.wake (hs : Shows (m, log) w) (hpc : m.pc h = .wake t node) :
    ∃ w', w.Step w' ∧ Shows (m.setPc h (.drop t node), log ++ [.woken h t]) w' := by
  obtain ⟨hc, hd⟩ : Tied m.next (m.head h) (.wake t node) (w.line h) (w.due h) := hpc ▸ hs.tied h
  refine ⟨_, .wake hd, hs.of_head (h := h) ?_ (fun i hi => ?_) ?_ hs.free fun u => ?_⟩
  · rw [hs.log]
  · exact ⟨rfl, by simp [WakeQ.setPc, hi], rfl, by simp [hi], fun u _ => rfl⟩
  · dsimp only [WakeQ.setPc]
    rw [Function.update_self, Function.update_self]
    exact ⟨hc, rfl⟩
  · simp [WakeQ.setPc, hpc, held]

theorem Shows.setPc (hs : Shows (m, log) w) {pc : WakeQPc T}
    (htied : Tied m.next (m.head h) pc (w.line h) (w.due h))
    (hheld : ∀ t, held (m.pc h) (w.line h) t = held pc (w.line h) t) :
    Shows (m.setPc h pc, log ++ []) w := by
  refine hs.quiet (h := h) rfl (fun i hi => ?_) ?_ fun t => ?_
  · simp [WakeQ.setPc, hi]
  · dsimp only [WakeQ.setPc]
    rwa [Function.update_self]
  · simp [WakeQ.setPc, hheld t]

theorem Shows.setRefs (hs : Shows (m, log) w) {pc : WakeQPc T} {usage refs : ℕ}
    (htied : Tied m.next (m.head h) pc (w.line h) (w.due h))
    (hat : usage + m.refs t + held (m.pc h) (w.line h) t =
      m.usage t + refs + held pc (w.line h) t)
    (hheld : ∀ u, u ≠ t → held (m.pc h) (w.line h) u = held pc (w.line h) u) :
    Shows ((m.setRefs t usage refs).setPc h pc, log ++ []) w := by
  refine hs.quiet (h := h) rfl (fun i hi => ?_) ?_ fun u => ?_
  · simp [WakeQ.setPc, WakeQ.setRefs, hi]
  · dsimp only [WakeQ.setPc]
    rwa [Function.update_self]
  · rcases eq_or_ne u t with rfl | hu
    · simpa [WakeQ.setPc, WakeQ.setRefs] using hat
    · simp [WakeQ.setPc, WakeQ.setRefs, hu, hheld u hu]

omit [DecidableEq H] in
theorem Shows.outside (hs : Shows (m, log) w) {usage refs : ℕ}
    (hat : usage + m.refs t = m.usage t + refs) :
    Shows (m.setRefs t usage refs, log ++ []) w := by
  refine ⟨by simpa using hs.log, hs.tied, hs.free, fun u => ?_⟩
  have hu := hs.usage u
  dsimp only [WakeQ.setRefs] at hu ⊢
  rcases eq_or_ne u t with rfl | hne
  · rw [Function.update_self, Function.update_self]
    omega
  · rwa [Function.update_of_ne hne, Function.update_of_ne hne]

omit [DecidableEq H] in
theorem Shows.held_le (hs : Shows (m, log) w) (h : H) (t : T) :
    m.refs t + held (m.pc h) (w.line h) t ≤ m.usage t := by
  have hle := Finset.single_le_sum (f := fun i => held (m.pc i) (w.line i) t)
    (fun i _ => Nat.zero_le _) (Finset.mem_univ h)
  have hu := hs.usage t
  dsimp only at hu hle
  omega

theorem Shows.goOn (hs : Shows (m, log) w) (hw : w.Orderly) {es : List (WakeEvent H T)}
    (hgo : m.goOn h = some (m', es)) :
    ∃ w', Relation.ReflTransGen (wakers H T).step w w' ∧ Shows (m', log ++ es) w' := by
  have htied := hs.tied h
  have hle := hs.held_le h
  unfold WakeQ.goOn at hgo
  dsimp only at htied
  split at hgo
  case h_1 => cases hgo
  case h_2 task call hpc =>
    obtain ⟨rfl, rfl⟩ := Prod.mk.inj (Option.some.inj hgo)
    exact ⟨w, .refl, hs.storeLast hw hpc⟩
  case h_3 task call hpc =>
    rw [hpc] at htied
    obtain ⟨ts, hline, hc, hd⟩ := htied
    have hlast : some task = (w.line h).getLast? := by rw [hline, List.getLast?_concat]
    have hset : ∀ pc, Tied m.next { m.head h with lastp := some task } pc (w.line h) (w.due h) →
        (∀ t, held pc (w.line h) t = held (m.pc h) (w.line h) t) →
        Shows ((m.setHead h { m.head h with lastp := some task }).setPc h pc, log ++ []) w := by
      intro pc htied hheld
      refine hs.quiet (h := h) rfl (fun i hi => ?_) ?_ fun t => ?_
      · simp [WakeQ.setPc, WakeQ.setHead, hi]
      · dsimp only [WakeQ.setPc, WakeQ.setHead]
        rwa [Function.update_self, Function.update_self]
      · simp [WakeQ.setPc, WakeQ.setHead, hheld t]
    refine ⟨w, .refl, ?_⟩
    cases call with
    | wakeQAdd =>
      obtain ⟨rfl, rfl⟩ := Prod.mk.inj (Option.some.inj hgo)
      exact hset _ ⟨hc, hlast, hd⟩ fun t => by rw [hpc]; rfl
    | wakeQAddSafe =>
      obtain ⟨rfl, rfl⟩ := Prod.mk.inj (Option.some.inj hgo)
      exact hset _ ⟨hc, hlast, hd⟩ fun t => by rw [hpc]; rfl
  case h_4 task hpc =>
    obtain ⟨rfl, rfl⟩ := Prod.mk.inj (Option.some.inj hgo)
    rw [hpc] at htied
    refine ⟨w, .refl, hs.setRefs htied ?_ fun u _ => by rw [hpc]; rfl⟩
    simp only [hpc, held]
    omega
  case h_5 task hpc =>
    obtain ⟨rfl, rfl⟩ := Prod.mk.inj (Option.some.inj hgo)
    have hpos := hle task
    rw [hpc] at htied hpos
    refine ⟨w, .refl, hs.setRefs htied ?_ fun u hu => by simp [hpc, held, hu.symm]⟩
    simp only [hpc, held, if_true] at hpos ⊢
    omega
  case h_6 hpc =>
    obtain ⟨rfl, rfl⟩ := Prod.mk.inj (Option.some.inj hgo)
    rw [hpc] at htied
    exact ⟨w, .refl, hs.setPc ⟨chain_tail_iff.mp htied.1, htied.2⟩ fun t => by rw [hpc]; rfl⟩
  case h_7 => cases hgo
  case h_8 task hpc =>
    obtain ⟨rfl, rfl⟩ := Prod.mk.inj (Option.some.inj hgo)
    rw [hpc] at htied
    obtain ⟨ts, hline, hc⟩ := chain_node_iff.mp htied.1
    exact ⟨w, .refl, hs.setPc ⟨ts, hline, hc, htied.2⟩ fun t => by rw [hpc]; rfl⟩
  case h_9 task node hpc =>
    obtain ⟨rfl, rfl⟩ := Prod.mk.inj (Option.some.inj hgo)
    obtain ⟨w', hstep, hshows⟩ := hs.unlink hw hpc
    exact ⟨w', .single hstep, hshows⟩
  case h_10 task node hpc =>
    obtain ⟨rfl, rfl⟩ := Prod.mk.inj (Option.some.inj hgo)
    obtain ⟨w', hstep, hshows⟩ := hs.wake hpc
    exact ⟨w', .single hstep, hshows⟩
  case h_11 task node hpc =>
    obtain ⟨rfl, rfl⟩ := Prod.mk.inj (Option.some.inj hgo)
    have hpos := hle task
    rw [hpc] at htied hpos
    refine ⟨w, .refl, hs.setRefs htied ?_ fun u hu => by simp [hpc, held, hu.symm]⟩
    simp only [hpc, held, if_true] at hpos ⊢
    omega
  case h_12 => cases hgo

theorem Shows.act (hs : Shows (m, log) w) (hw : w.Orderly) {a : WakeQAction H T}
    {es : List (WakeEvent H T)} (ha : m.act a = some (m', es)) :
    ∃ w', Relation.ReflTransGen (wakers H T).step w w' ∧ Shows (m', log ++ es) w' := by
  cases a with
  | add h t call =>
    obtain ⟨⟨hpc, hrefs⟩, heq⟩ := guarded ha
    have htied : Tied m.next (m.head h) .idle (w.line h) (w.due h) := hpc ▸ hs.tied h
    by_cases hnull : m.next t = .null
    · unfold WakeQ.wakeQAdd at heq
      rw [if_pos hnull] at heq
      obtain ⟨rfl, rfl⟩ := Prod.mk.inj heq
      exact ⟨_, .single (.queue ((hs.free t).mp hnull)), hs.claim hpc hnull hrefs⟩
    · unfold WakeQ.wakeQAdd at heq
      rw [if_neg hnull] at heq
      obtain ⟨i, hin⟩ : ∃ i, t ∈ w.line i := by simpa using mt (hs.free t).mpr hnull
      have hshow : ∀ {n}, Shows (n, log ++ []) w →
          Shows (n, log ++ [.refused h t]) ⟨w.line, w.due, w.log ++ [.refused h t]⟩ := by
        intro n hn
        exact ⟨by rw [hs.log], hn.tied, hn.free, hn.usage⟩
      refine ⟨_, .single (.refuse (h := h) hin), ?_⟩
      cases call with
      | wakeQAdd =>
        obtain ⟨rfl, rfl⟩ := Prod.mk.inj heq
        exact hshow (by rwa [List.append_nil])
      | wakeQAddSafe =>
        obtain ⟨rfl, rfl⟩ := Prod.mk.inj heq
        refine hshow (hs.setRefs htied ?_ fun u hu => by simp [hpc, held, hu.symm])
        simp only [hpc, held, if_true]
        omega
  | wakeUpQ h =>
    obtain ⟨hpc, heq⟩ := guarded ha
    obtain ⟨rfl, rfl⟩ := Prod.mk.inj heq
    obtain ⟨hc, -, hd⟩ : Tied m.next (m.head h) .idle (w.line h) (w.due h) := hpc ▸ hs.tied h
    exact ⟨w, .refl, hs.setPc ⟨hc, hd⟩ fun t => by rw [hpc]; rfl⟩
  | goOn h => exact hs.goOn hw ha
  | wakeQInit h =>
    obtain ⟨hpc, heq⟩ := guarded ha
    obtain ⟨rfl, rfl⟩ := Prod.mk.inj heq
    obtain ⟨hline, hd⟩ : Tied m.next (m.head h) .done (w.line h) (w.due h) := hpc ▸ hs.tied h
    refine ⟨w, .refl, hs.quiet (h := h) rfl (fun i hi => ?_) ?_ fun t => ?_⟩
    · simp [WakeQ.setPc, WakeQ.setHead, hi]
    · dsimp only [WakeQ.setPc, WakeQ.setHead]
      rw [Function.update_self, Function.update_self, hline]
      exact ⟨rfl, rfl, hd⟩
    · simp [WakeQ.setPc, WakeQ.setHead, hpc, held]
  | getTaskStruct t =>
    obtain ⟨hrefs, heq⟩ := guarded ha
    obtain ⟨rfl, rfl⟩ := Prod.mk.inj heq
    exact ⟨w, .refl, hs.outside (by omega)⟩
  | putTaskStruct t =>
    obtain ⟨hrefs, heq⟩ := guarded ha
    obtain ⟨rfl, rfl⟩ := Prod.mk.inj heq
    have := hs.usage t
    dsimp only at this
    exact ⟨w, .refl, hs.outside (by omega)⟩

end Step

theorem shows_simulation : (wakeQ H T).Simulation (wakers H T) Shows where
  init := by
    rintro ⟨m, log⟩ ⟨hfresh, hlog⟩
    dsimp only at hfresh hlog
    refine ⟨_, rfl, ⟨hlog.symm, fun h => ?_, fun t => ?_, fun t => ?_⟩⟩
    · dsimp only
      rw [hfresh.pc, hfresh.head]
      exact ⟨rfl, rfl, rfl⟩
    · simp [hfresh.next]
    · simp [hfresh.usage, hfresh.pc, held]
  step := by
    rintro ⟨m, log⟩ s' w hw hs ⟨a, m', es, ha, rfl⟩
    exact hs.act (Wakers.orderly hw) ha

/-- The memory shows orderly lines in every run. -/
theorem exists_shows {s : WakeQ H T × List (WakeEvent H T)} (h : (wakeQ H T).Reachable s) :
    ∃ w : Wakers H T, w.Orderly ∧ Shows s w := by
  obtain ⟨w, hw, hs⟩ := shows_simulation.reachable h
  exact ⟨w, Wakers.orderly hw, hs⟩

namespace WakeQ

variable {m : WakeQ H T} {log : List (WakeEvent H T)}

/-- Under every interleaving a context wakes the tasks that it queued in their order, each once:
the list in memory is what is left, `wake_up_q` leaves nothing, and no task is in two lists. -/
theorem wakes_in_order (hr : (wakeQ H T).Reachable (m, log)) (h : H) :
    wokenBy h log <+: queuedBy h log ∧
    (m.pc h = .done → wokenBy h log = queuedBy h log) ∧
    (m.pc h = .idle → ∃ ts, Chain m.next (m.head h).first ts ∧
      queuedBy h log = wokenBy h log ++ ts) ∧
    ∀ i ts us, i ≠ h → m.pc h = .idle → m.pc i = .idle → Chain m.next (m.head h).first ts →
      Chain m.next (m.head i).first us → ts.Disjoint us := by
  obtain ⟨w, hw, hs⟩ := exists_shows hr
  have hfifo := hw.fifo h
  rw [hs.log] at hfifo
  have hidle : ∀ i, m.pc i = .idle → Chain m.next (m.head i).first (w.line i) ∧ w.due i = none := by
    intro i hpc
    obtain ⟨hc, -, hd⟩ : Tied m.next (m.head i) .idle (w.line i) (w.due i) := hpc ▸ hs.tied i
    exact ⟨hc, hd⟩
  refine ⟨⟨_, by rw [← List.append_assoc]; exact hfifo.symm⟩, fun hpc => ?_, fun hpc => ?_, ?_⟩
  · obtain ⟨hline, hd⟩ : Tied m.next (m.head h) .done (w.line h) (w.due h) := hpc ▸ hs.tied h
    rw [hfifo, hline, hd]
    simp
  · obtain ⟨hc, hd⟩ := hidle h hpc
    refine ⟨w.line h, hc, ?_⟩
    rw [hfifo, hd]
    simp
  · intro i ts us hi hpc hpci hts hus t ht hu
    obtain rfl := hts.unique (hidle h hpc).1
    obtain rfl := hus.unique (hidle i hpci).1
    exact hi (hw.apart i h t hu ht)

theorem wakes_in_order_raced : ∃ s, run (fresh fun _ => 2, []) raced = some s ∧
    wokenBy false s.2 <+: queuedBy false s.2 ∧
    (s.1.pc false = .done → wokenBy false s.2 = queuedBy false s.2) ∧
    (s.1.pc false = .idle → ∃ ts, Chain s.1.next (s.1.head false).first ts ∧
      queuedBy false s.2 = wokenBy false s.2 ++ ts) ∧
    ∀ i ts us, i ≠ false → s.1.pc false = .idle → s.1.pc i = .idle →
      Chain s.1.next (s.1.head false).first ts → Chain s.1.next (s.1.head i).first us →
      ts.Disjoint us := by
  obtain ⟨s, hs⟩ := Option.isSome_iff_exists.mp
    (show (run (fresh fun _ => 2, []) raced).isSome = true by decide)
  exact ⟨s, hs, wakes_in_order (run_reachable (fresh_reachable _) hs) false⟩

/-- No wake-up is lost: a task for which an add has run, even one that found it queued elsewhere,
is woken after that, unless a context that has not finished still has it to wake. -/
theorem no_wakeup_lost (hr : (wakeQ H T).Reachable (m, log)) {past future : List (WakeEvent H T)}
    {e : WakeEvent H T} {t : T} (hlog : log = past ++ e :: future) (he : Requested t e) :
    (∃ h, .woken h t ∈ future) ∨
    ∃ h ts, m.pc h ≠ .done ∧ queuedBy h log = wokenBy h log ++ ts ∧ t ∈ ts := by
  obtain ⟨w, hw, hs⟩ := exists_shows hr
  have hwlog : w.log = log := hs.log
  rcases hw.kept past e future t (hwlog.trans hlog) he with hwoken | ⟨h, hpending⟩
  · exact Or.inl hwoken
  · refine Or.inr ⟨h, (w.due h).toList ++ w.line h, fun hpc => ?_, ?_, ?_⟩
    · obtain ⟨hline, hd⟩ : Tied m.next (m.head h) .done (w.line h) (w.due h) := hpc ▸ hs.tied h
      rw [hline, hd] at hpending
      simp at hpending
    · rw [← hwlog, ← List.append_assoc]
      exact hw.fifo h
    · simpa using hpending

theorem no_wakeup_lost_raced : ∃ s, run (fresh fun _ => 2, []) raced = some s ∧
    ((∃ h, .woken h () ∈ [WakeEvent.woken false ()]) ∨
      ∃ h ts, s.1.pc h ≠ .done ∧ queuedBy h s.2 = wokenBy h s.2 ++ ts ∧ () ∈ ts) := by
  obtain ⟨s, hs, hlog⟩ := Option.map_eq_some_iff.mp (show (run (fresh fun _ => 2, []) raced).map
    Prod.snd = some [.queued false (), .refused true (), .woken false ()] by decide)
  have hsplit : s.2 = [.queued false ()] ++ .refused true () :: [.woken false ()] := hlog
  exact ⟨s, hs, no_wakeup_lost (run_reachable (fresh_reachable _) hs) hsplit ⟨true, Or.inr rfl⟩⟩

/-- No context follows a null link or drops a reference that it does not have: a task is in use
while it is queued and until the `put_task_struct` after its wake-up, and the references balance
when all lists are empty. -/
theorem references_balance (hr : (wakeQ H T).Reachable (m, log)) :
    (∀ h, m.goOn h = none → m.pc h = .idle ∨ m.pc h = .done) ∧
    (∀ t, m.next t ≠ .null → m.refs t < m.usage t) ∧
    (∀ h t node, m.pc h = .wake t node ∨ m.pc h = .drop t node ∨ m.pc h = .putTask t →
      m.refs t < m.usage t) ∧
    ((∀ h, m.pc h = .done ∨ m.pc h = .idle ∧ (m.head h).first = .tail) → m.usage = m.refs) := by
  obtain ⟨w, -, hs⟩ := exists_shows hr
  have hheld : ∀ h t, 0 < held (m.pc h) (w.line h) t → m.refs t < m.usage t := by
    intro h t hpos
    have := hs.held_le h t
    omega
  refine ⟨fun h hgo => ?_, fun t hnext => ?_, fun h t node hpc => hheld h t ?_, fun hall => ?_⟩
  · have htied := hs.tied h
    unfold WakeQ.goOn at hgo
    dsimp only at htied
    split at hgo
    case h_1 hpc => exact Or.inl hpc
    case h_3 => split at hgo <;> cases hgo
    case h_7 hpc =>
      rw [hpc] at htied
      exact absurd htied.1 not_chain_null
    case h_12 hpc => exact Or.inr hpc
    all_goals cases hgo
  · obtain ⟨h, hin⟩ : ∃ h, t ∈ w.line h := by simpa using mt (hs.free t).mpr hnext
    refine hheld h t (Nat.lt_of_lt_of_le (List.count_pos_iff.mpr hin) ?_)
    exact Nat.le_add_right _ _
  · rcases hpc with hpc | hpc | hpc
    all_goals simp [hpc, held]
  · funext t
    have hnone : ∀ h, held (m.pc h) (w.line h) t = 0 := by
      intro h
      have htied := hs.tied h
      dsimp only at htied
      rcases hall h with hpc | ⟨hpc, hfirst⟩
      · rw [hpc] at htied
        rw [hpc, htied.1]
        rfl
      · rw [hpc] at htied
        obtain ⟨hc, -⟩ := htied
        rw [hfirst, chain_tail_iff] at hc
        rw [hpc, hc]
        rfl
    have hu := hs.usage t
    simpa [hnone] using hu

theorem references_balance_raced : ∃ s, run (fresh fun _ => 2, []) raced = some s ∧
    (∀ h, s.1.goOn h = none → s.1.pc h = .idle ∨ s.1.pc h = .done) ∧
    (∀ t, s.1.next t ≠ .null → s.1.refs t < s.1.usage t) ∧
    (∀ h t node, s.1.pc h = .wake t node ∨ s.1.pc h = .drop t node ∨ s.1.pc h = .putTask t →
      s.1.refs t < s.1.usage t) ∧
    ((∀ h, s.1.pc h = .done ∨ s.1.pc h = .idle ∧ (s.1.head h).first = .tail) →
      s.1.usage = s.1.refs) := by
  obtain ⟨s, hs⟩ := Option.isSome_iff_exists.mp
    (show (run (fresh fun _ => 2, []) raced).isSome = true by decide)
  exact ⟨s, hs, references_balance (run_reachable (fresh_reachable _) hs)⟩

end WakeQ

end OperatingSystem.Kernel
