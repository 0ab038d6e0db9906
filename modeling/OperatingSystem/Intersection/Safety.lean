import Mathlib.Data.Set.Insert
import OperatingSystem.Intersection.Phases

/-! # Safety of the intersection

In every reachable state of the handshake no vehicle is lost or duplicated, and the
vehicles that cross never block each other.
-/

namespace OperatingSystem.Intersection

open Op

variable {L : List Point} {ph : Phase} {c : Control}

namespace Rep

theorem atPrint (h : Rep L ph c) (hc : AtPrint c) : ∃ x, ph = .head x := by
  obtain ⟨hdone, hcode⟩ := hc
  rw [h.code] at hcode
  cases ph with
  | head x => exact ⟨x, rfl⟩
  | enter p x sig => cases x <;> cases sig <;> simp [Phase.code] at hcode
  | putBack p q => simp [Phase.code] at hcode
  | save p q => simp [Phase.code] at hcode
  | leave q x sig => cases sig <;> simp [Phase.code] at hcode
  | done => simp [h.done.mpr rfl] at hdone

theorem atPutBack {p : Point} {code : List Op} (h : Rep L ph c) (hc : c.code = putBack p :: code) :
    ∃ q, ph = .putBack p q := by
  rw [h.code] at hc
  cases ph with
  | head x => simp [Phase.code] at hc
  | enter p x sig => cases x <;> cases sig <;> simp [Phase.code] at hc
  | putBack p q =>
    obtain ⟨rfl, -⟩ : _ ∧ _ := by simpa [Phase.code] using hc
    exact ⟨q, rfl⟩
  | save p q => simp [Phase.code] at hc
  | leave q x sig => cases sig <;> simp [Phase.code] at hc
  | done => simp [Phase.code] at hc

theorem finished (h : Rep L .done c) :
    (c.globals.out.flatMap Progress.passed).Perm L ∧ (∀ v ∈ c.globals.waitingList, v = none) ∧
      ∀ p, c.globals.process p = 0 := by
  have hall : ∀ p, c.globals.finish p = true := allFinish_iff.mp h.locals
  have hjob : ∀ p, c.globals.jobCount p = L.count p := fun p => (h.core.finish p).mp (hall p)
  constructor
  · rw [List.perm_iff_count]
    intro p
    have hp := h.core.printed p
    rw [h.passed.2, List.count_replicate] at hp
    simpa [hjob] using hp
  constructor
  · intro v hv
    cases v with
    | none => rfl
    | some p =>
      have hc := h.core.conserve p
      have hpos := List.count_pos_iff.mpr hv
      have hj := hjob p
      omega
  · intro p
    have hc := h.core.conserve p
    have hj := hjob p
    omega

end Rep

/-- No vehicle is lost or duplicated. At a call of `print_progress` every vehicle is not yet read,
waiting, crossing or passed; `waiting_index` stays below the number of vehicles; the two stores
into `waiting_list` hit an empty slot; and after the loop exactly the vehicles of the list have been
printed as passed. -/
theorem vehicles_conserved (hL₀ : 1 ≤ L.length) (hL : L.length ≤ 20)
    (h : (handshake L).Reachable c) :
    (AtPrint c → ∀ p, c.globals.pCount p =
      (c.globals.startPointList.drop c.globals.listIndex).count p +
        c.globals.waitingList.count (some p) + (if c.globals.process p = 1 then 1 else 0) +
        c.globals.jobCount p) ∧
    c.globals.waitingIndex ≤ L.length - 1 ∧
    (AtPrint c → c.globals.startPointList[c.globals.listIndex]? ≠ none →
      c.globals.waitingList[c.globals.waitingIndex]? = some none) ∧
    (∀ p code, c.code = putBack p :: code → c.globals.waitingList[c.idx]? = some none) ∧
    (c.done = true → (c.globals.out.flatMap Progress.passed).Perm L ∧
      (∀ v ∈ c.globals.waitingList, v = none) ∧ ∀ p, c.globals.process p = 0) := by
  obtain ⟨ph, hrep⟩ := handshake_rep hL₀ hL h
  refine ⟨?_, ?_, fun _ _ => hrep.core.slot_free hL, ?_, ?_⟩
  · intro hc p
    obtain ⟨x, rfl⟩ := hrep.atPrint hc
    have hcons := hrep.core.conserve p
    have hproc := hrep.process p
    rw [hrep.core.pCount, hrep.core.list, hcons]
    split at hproc <;> simp [hproc, Phase.hand]
  · have hidx := hrep.core.waitingIndex
    omega
  · intro p code hc
    obtain ⟨q, rfl⟩ := hrep.atPutBack hc
    exact hrep.locals.2.2
  · intro hd
    obtain rfl := hrep.done.mp hd
    exact hrep.finished

/-- Two facing vehicles and one that has to be put back. -/
theorem vehicles_conserved_three : ∃ c, handshakeRun [.p1, .p3, .p2] 18 = some c ∧ c.done = true ∧
    (c.globals.out.flatMap Progress.passed).Perm [.p1, .p3, .p2] := by
  have hrun : (handshakeRun [.p1, .p3, .p2] 18).map (fun c => c.done) = some true := by decide
  obtain ⟨c, hc, hd⟩ := Option.map_eq_some_iff.mp hrun
  have h := vehicles_conserved (by decide) (by decide) (handshakeRun_reachable hc)
  exact ⟨c, hc, hd, (h.2.2.2.2 hd).1⟩

theorem Phase.setOf_crosses (hv : ph.Valid) :
    {p | ph.Crosses p} = ∅ ∨ (∃ p, {q | ph.Crosses q} = {p}) ∨
      ∃ p, {q | ph.Crosses q} = {p, opposite p} := by
  have htwo : ∀ p q : Point, {r | p = r ∨ q = r} = ({p, q} : Set Point) := by
    intro p q
    ext r
    exact or_congr eq_comm eq_comm
  cases ph with
  | head x =>
    cases x with
    | none => simp [Phase.Crosses]
    | some p => exact Or.inr (Or.inl ⟨p, by simp [Phase.Crosses]⟩)
  | enter p x sig =>
    cases x with
    | none => simp [Phase.Crosses]
    | some q => exact Or.inr (Or.inl ⟨q, by simp [Phase.Crosses]⟩)
  | putBack p q => exact Or.inr (Or.inl ⟨q, by simp [Phase.Crosses]⟩)
  | save p q =>
    obtain rfl : q = opposite p := hv
    exact Or.inr (Or.inr ⟨p, htwo p _⟩)
  | leave q x sig =>
    cases x with
    | none => exact Or.inr (Or.inl ⟨q, by simp [Phase.Crosses]⟩)
    | some p =>
      obtain rfl : p = opposite q := hv
      exact Or.inr (Or.inr ⟨q, by simpa [Phase.Crosses] using htwo q _⟩)
  | done => exact Or.inl (by simp [Phase.Crosses])

theorem pair_opposite (p : Point) :
    ({p, opposite p} : Set Point) = {.p1, .p3} ∨ ({p, opposite p} : Set Point) = {.p2, .p4} := by
  cases p
  · exact Or.inl rfl
  · exact Or.inr rfl
  · exact Or.inl (Set.pair_comm _ _)
  · exact Or.inr (Set.pair_comm _ _)

/-- Mutual exclusion. No start point has two vehicles on the crossing, vehicles that cross together
form a facing pair, and at every selection `where` names the one vehicle that is crossing. -/
theorem crossing_exclusive (hL₀ : 1 ≤ L.length) (hL : L.length ≤ 20)
    (h : (handshake L).Reachable c) :
    (∀ p, c.globals.process p ≤ 1) ∧
    ({p | c.globals.process p = 1} = ∅ ∨ (∃ p, {q | c.globals.process q = 1} = {p}) ∨
      {p | c.globals.process p = 1} = {.p1, .p3} ∨ {p | c.globals.process p = 1} = {.p2, .p4}) ∧
    (AtPrint c →
      ((beforeSelect c.toVars).globals.whereAt = none ↔
        ∀ p, (beforeSelect c.toVars).globals.process p ≠ 1) ∧
      ∀ p, (beforeSelect c.toVars).globals.whereAt = some p →
        ∀ q, (beforeSelect c.toVars).globals.process q = 1 ↔ q = p) := by
  obtain ⟨ph, hrep⟩ := handshake_rep hL₀ hL h
  refine ⟨?_, ?_, ?_⟩
  · intro p
    rw [hrep.process]
    split <;> simp
  · have hset : {p | c.globals.process p = 1} = {p | ph.Crosses p} := by
      ext p
      simp [hrep.process p]
    rw [hset]
    obtain hs | ⟨p, hs⟩ | ⟨p, hs⟩ := Phase.setOf_crosses hrep.valid
    · exact Or.inl hs
    · exact Or.inr (Or.inl ⟨p, hs⟩)
    · rw [hs]
      exact Or.inr (Or.inr (pair_opposite p))
  · intro hc
    obtain ⟨x, rfl⟩ := hrep.atPrint hc
    have hsel := hrep.selecting hL
    rw [hsel.whereAt]
    constructor
    · cases x with
      | none => simp [hsel.process]
      | some p => simp [hsel.process]
    · rintro p rfl q
      simp [hsel.process, eq_comm]

/-- Before the third block is printed the second vehicle is crossing alone. -/
theorem crossing_exclusive_three : ∃ c, handshakeRun [.p1, .p3, .p2] 7 = some c ∧ AtPrint c ∧
    ∀ q, (beforeSelect c.toVars).globals.process q = 1 ↔ q = .p3 := by
  have hrun : (handshakeRun [.p1, .p3, .p2] 7).map
      (fun c => (c.done, c.code, (beforeSelect c.toVars).globals.whereAt)) =
        some (false, [], some .p3) := by decide
  obtain ⟨c, hc, hd⟩ := Option.map_eq_some_iff.mp hrun
  simp only [Prod.mk.injEq] at hd
  obtain ⟨hdone, hcode, hwhere⟩ := hd
  have h := crossing_exclusive (by decide) (by decide) (handshakeRun_reachable hc)
  exact ⟨c, hc, ⟨hdone, hcode⟩, (h.2.2 ⟨hdone, hcode⟩).2 .p3 hwhere⟩

end OperatingSystem.Intersection
