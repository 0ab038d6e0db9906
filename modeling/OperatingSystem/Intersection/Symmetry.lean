import Mathlib.Data.List.Count
import Mathlib.Logic.Equiv.Basic
import OperatingSystem.Intersection.Ticks

/-! # Symmetry of the start points

A permutation of the start points that keeps facing points facing carries a run of
the handshake to the run on the permuted list, step by step.
-/

namespace OperatingSystem.Intersection

open Op

variable (s : Equiv.Perm Point)

def Progress.rename (t : Progress) : Progress := ⟨t.tick, t.passed.map s, t.waiting.map s⟩

def Globals.rename (g : Globals) : Globals where
  jobCount := g.jobCount ∘ s.symm
  startPointList := g.startPointList.map s
  passedList := g.passedList.map (Option.map s)
  waitingList := g.waitingList.map (Option.map s)
  pCount := g.pCount ∘ s.symm
  process := g.process ∘ s.symm
  tick := g.tick
  listIndex := g.listIndex
  passedIndex := g.passedIndex
  waitingIndex := g.waitingIndex
  key := g.key.map s
  start := g.start.map s
  whereAt := g.whereAt.map s
  whereTemp := g.whereTemp.map s
  finish := g.finish ∘ s.symm
  out := g.out.map (Progress.rename s)

def Op.rename : Op → Op
  | signal p => signal (s p)
  | wait => wait
  | putBack p => putBack (s p)
  | saveWhere => saveWhere

def Vars.rename (v : Vars) : Vars := { v with globals := v.globals.rename s }

def Control.rename (c : Control) : Control where
  toVars := c.toVars.rename s
  pending := c.pending.map s
  code := c.code.map (Op.rename s)
  done := c.done

section Globals

theorem createRandomList_map (L : List Point) :
    createRandomList (L.map s) = (createRandomList L).rename s := by
  have hcount : ∀ p, (L.map s).count p = L.count (s.symm p) := by
    intro p
    conv_lhs => rw [← s.apply_symm_apply p]
    exact List.count_map_of_injective L s s.injective _
  simp [createRandomList, Globals.rename, hcount, Function.comp_def]

theorem readStart_rename (g : Globals) : readStart (g.rename s) = (readStart g).rename s := by
  simp [readStart, Globals.rename]

theorem printProgress_rename (g : Globals) :
    printProgress (g.rename s) = (printProgress g).rename s := by
  simp [printProgress, Globals.rename, Progress.rename, List.reduceOption_map]

theorem clearPassed_rename (g : Globals) : clearPassed (g.rename s) = (clearPassed g).rename s := by
  simp [clearPassed, Globals.rename]

theorem arrive_rename (g : Globals) : arrive (g.rename s) = (arrive g).rename s := by
  unfold arrive
  rw [readStart_rename]
  cases h : (readStart g).start with
  | none => simp [Globals.rename, h]
  | some p => simp [Globals.rename, h, List.map_set]

theorem take_rename (g : Globals) (i : ℕ) : take (g.rename s) i = (take g i).rename s := by
  cases h : g.waitingList[i]? <;> simp [take, Globals.rename, h, List.map_set]

theorem allFinish_rename (g : Globals) : allFinish (g.rename s) = allFinish g := by
  rw [Bool.eq_iff_iff, allFinish_iff, allFinish_iff]
  exact s.symm.forall_congr_left.trans (by simp [Globals.rename])

theorem update_comp_symm {β : Type*} (f : Point → β) (p : Point) (b : β) :
    Function.update (f ∘ s.symm) (s p) b = Function.update f p b ∘ s.symm := by
  rw [Function.update_comp_equiv]
  simp

theorem work_rename (p : Point) (g : Globals) : work (s p) (g.rename s) = (work p g).rename s := by
  have hp : ∀ {β : Type} (f : Point → β), (f ∘ s.symm) (s p) = f p := by simp
  unfold work
  simp only [Globals.rename, hp, update_comp_symm, Function.update_self]
  split_ifs <;> simp_all [update_comp_symm, List.map_set]

end Globals

section Selection

variable {s} (hs : ∀ p, s (opposite p) = opposite (s p))

theorem firstIndex_map (f : Option Point → Option Point) (test : Option Point → Bool)
    (l : List (Option Point)) (i : ℕ) :
    firstIndex test (l.map f) i = firstIndex (fun v => test (f v)) l i := by
  induction l generalizing i with
  | nil => rfl
  | cons v l ih => simp only [List.map_cons, firstIndex, ih]

include hs

theorem faces_rename (x y : Option Point) : faces (x.map s) (y.map s) = faces x y := by
  rcases x with - | p
  · rfl
  · rcases y with - | q
    · rw [Option.map_none, faces_none, faces_none]
    · simp only [Option.map_some, faces_some, ← hs, s.injective.eq_iff]

theorem select_rename (g : Globals) (idx : ℕ) :
    select (g.rename s) idx = ((select g idx).1.rename s, (select g idx).2) := by
  have hkey : { g.rename s with key := none } = { g with key := none }.rename s := rfl
  have hface : firstIndex (faces (g.whereAt.map s)) (g.waitingList.map (Option.map s)) 0 =
      firstIndex (faces g.whereAt) g.waitingList 0 := by
    simp only [firstIndex_map, faces_rename hs]
  have hsome : firstIndex Option.isSome (g.waitingList.map (Option.map s)) 0 =
      firstIndex Option.isSome g.waitingList 0 := by
    simp only [firstIndex_map, Option.isSome_map]
  unfold select
  simp only [hkey, take_rename]
  simp only [Globals.rename, hface, hsome]
  split
  case h_1 => rfl
  case h_2 => split <;> rfl

theorem switchKey_rename (x y : Option Point) :
    switchKey (x.map s) (y.map s) = (switchKey x y).map (Op.rename s) := by
  rcases y with - | p
  · cases x <;> rfl
  · rcases x with - | q
    · simp [switchKey_none, Op.rename]
    · simp only [Option.map_some, switchKey_some, ← hs, s.injective.eq_iff]
      split_ifs <;> rfl

theorem dispatch_rename (g : Globals) : dispatch (g.rename s) = (dispatch g).map (Op.rename s) := by
  have hwhere : ∀ x : Option Point,
      switchWhere (x.map s) = (switchWhere x).map (Op.rename s) := by
    rintro (- | p)
    · rfl
    · simp [switchWhere_some, Op.rename]
  simp only [dispatch, Globals.rename, switchKey_rename hs, hwhere, List.map_append]
  rfl

theorem tickHead_rename (v : Vars) : tickHead (v.rename s) = (tickHead v).rename s := by
  have hbefore : beforeSelect (v.rename s) = (beforeSelect v).rename s := by
    unfold beforeSelect restoreWhere
    simp only [Vars.rename, printProgress_rename, clearPassed_rename, arrive_rename]
    split <;> rfl
  unfold tickHead
  rw [hbefore]
  simp only [Vars.rename, select_rename hs]

theorem loop_rename (c : Control) : loop (c.rename s) = (loop c).rename s := by
  have htick : tickHead (c.rename s).toVars = (tickHead c.toVars).rename s := tickHead_rename hs _
  have hall : allFinish ((tickHead c.toVars).rename s).globals =
      allFinish (tickHead c.toVars).globals :=
    allFinish_rename s _
  unfold loop
  simp only [htick, hall]
  split
  case isTrue => rfl
  case isFalse =>
    rw [show dispatch ((tickHead c.toVars).rename s).globals = _ from dispatch_rename hs _]
    rfl

/-- A step of the renamed program is the renamed step. -/
theorem next_rename (c : Control) : (c.rename s).next = c.next.map (Control.rename s) := by
  obtain ⟨v, pending, code, done⟩ := c
  cases done with
  | true => rfl
  | false =>
    cases code with
    | nil => exact congrArg some (loop_rename hs _)
    | cons op code =>
      cases op with
      | signal p =>
        have hsig : signalled (v.globals.rename s) (s p) = (signalled v.globals p).map s := by
          cases hf : v.globals.finish p <;> simp [signalled, Globals.rename, hf]
        simp [Control.next, Control.rename, Op.rename, Vars.rename, hsig]
      | wait =>
        cases pending with
        | none => rfl
        | some p => simp [Control.next, Control.rename, Op.rename, Vars.rename, work_rename]
      | putBack p =>
        simp [Control.next, Control.rename, Op.rename, Vars.rename, putBackAt, Globals.rename,
          List.map_set]
      | saveWhere => rfl

theorem handshakeRun_map (L : List Point) (k : ℕ) :
    handshakeRun (L.map s) k = (handshakeRun L k).map (Control.rename s) := by
  induction k with
  | zero =>
    simp only [handshakeRun, boot, createRandomList_map, readStart_rename, Option.map_some]
    rfl
  | succ k ih =>
    rw [handshakeRun, handshakeRun, ih]
    cases handshakeRun L k with
    | none => rfl
    | some c => exact next_rename hs c

end Selection

/-- The four start points are treated alike. Under a permutation that keeps facing points facing, the
run on the permuted list takes the same steps to the same number of ticks, prints the permuted
blocks and serves the permuted start points equally often. -/
theorem run_symmetric {L : List Point} (hL₀ : 1 ≤ L.length) (hL : L.length ≤ 20)
    (s : Equiv.Perm Point) (hs : ∀ p, s (opposite p) = opposite (s p)) :
    (∃ K c c', handshakeRun L K = some c ∧ handshakeRun (L.map s) K = some c' ∧
      c.done = true ∧ c'.done = true ∧ c'.globals.tick = c.globals.tick ∧
      c'.globals.out = c.globals.out.map (Progress.rename s) ∧
      ∀ p, c'.globals.jobCount (s p) = c.globals.jobCount p) ∧
    ∀ k, (handshakeRun (L.map s) k = none ↔ handshakeRun L k = none) ∧
      ∀ c c', handshakeRun L k = some c → handshakeRun (L.map s) k = some c' →
        (AtPrint c' ↔ AtPrint c) ∧ c'.globals.tick = c.globals.tick ∧
        c'.globals.passedList = c.globals.passedList.map (Option.map s) ∧
        c'.globals.waitingList = c.globals.waitingList.map (Option.map s) := by
  have hrun := handshakeRun_map hs L
  constructor
  · obtain ⟨K, c, hc, hd⟩ := handshakeRun_done hL₀ hL
    refine ⟨K, c, c.rename s, hc, by rw [hrun, hc, Option.map_some], hd, hd, rfl, rfl, fun p => ?_⟩
    exact congrArg c.globals.jobCount (s.symm_apply_apply p)
  · intro k
    rw [hrun]
    constructor
    · exact Option.map_eq_none_iff
    · rintro c c' hc hc'
      rw [hc, Option.map_some] at hc'
      obtain rfl := Option.some.inj hc'
      exact ⟨and_congr_right fun _ => List.map_eq_nil_iff, rfl, rfl, rfl⟩

/-- Both pairs of facing points exchanged. -/
theorem run_symmetric_exchange : ∃ K c c',
    handshakeRun [.p1, .p3, .p2] K = some c ∧ handshakeRun [.p2, .p4, .p1] K = some c' ∧
      c.done = true ∧ c'.done = true ∧ c'.globals.tick = c.globals.tick := by
  obtain ⟨K, c, c', hc, hc', hd, hd', htick, -⟩ :=
    (run_symmetric (L := [.p1, .p3, .p2]) (by decide) (by decide)
      ((Equiv.swap .p1 .p2).trans (Equiv.swap .p3 .p4)) (by rintro (_ | _ | _ | _) <;> decide)).1
  exact ⟨K, c, c', hc, hc', hd, hd', htick⟩

end OperatingSystem.Intersection
