import OperatingSystem.Intersection.Handshake

/-! # The invariant of the intersection

Every vehicle is not yet read, waiting, in the hand of `job0`, crossing or passed.
The invariant counts the vehicles of each start point in these five places and
is kept by the pieces of code between two pthread calls.
-/

namespace OperatingSystem.Intersection

open Op

def opposite : Point → Point
  | .p1 => .p3
  | .p2 => .p4
  | .p3 => .p1
  | .p4 => .p2

@[simp] theorem opposite_opposite (p : Point) : opposite (opposite p) = p := by cases p <;> rfl

theorem opposite_ne (p : Point) : opposite p ≠ p := by cases p <;> decide

@[simp] theorem job_eq_work (p : Point) : job p = work p := by cases p <;> rfl

theorem switchKey_some (q p : Point) :
    switchKey (some q) (some p) =
      if p = opposite q then [signal p, wait, saveWhere] else [putBack p] := by
  cases q <;> cases p <;> rfl

theorem switchKey_none (p : Point) : switchKey none (some p) = [signal p] := by cases p <;> rfl

theorem switchWhere_some (q : Point) : switchWhere (some q) = [signal q] := by cases q <;> rfl

theorem allFinish_iff {g : Globals} : allFinish g = true ↔ ∀ p, g.finish p = true := by
  simp only [allFinish, Bool.and_eq_true]
  constructor
  · rintro ⟨⟨⟨h1, h2⟩, h3⟩, h4⟩ p
    cases p <;> assumption
  · intro h
    exact ⟨⟨⟨h _, h _⟩, h _⟩, h _⟩

/-- Where the vehicles of the list `L` are, one of them possibly in the hand of `job0`. -/
structure Core (L : List Point) (hand : Option Point) (g : Globals) : Prop where
  list : g.startPointList = L
  pCount : ∀ p, g.pCount p = L.count p
  conserve : ∀ p, L.count p = (L.drop g.listIndex).count p + g.waitingList.count (some p) +
    (if hand = some p then 1 else 0) + g.process p + g.jobCount p
  finish : ∀ p, g.finish p = true ↔ g.jobCount p = L.count p
  waiting_length : g.waitingList.length = 20
  listIndex_pos : 1 ≤ g.listIndex
  waitingIndex : g.waitingIndex + 1 = min g.listIndex L.length
  free : ∀ j, g.waitingIndex ≤ j → j < 20 → g.waitingList[j]? = some none
  printed : ∀ p, (g.out.flatMap Progress.passed).count p + g.passedList.count (some p) = g.jobCount p

section Lists

variable {l : List (Option Point)} {p q : Point} {i : ℕ}

theorem count_reduceOption (l : List (Option Point)) (p : Point) :
    l.reduceOption.count p = l.count (some p) := by
  induction l with
  | nil => rfl
  | cons v l ih =>
    cases v with
    | none => simpa using ih
    | some q => simp [List.count_cons, ih]

theorem count_set_some (h : l[i]? = some none) :
    (l.set i (some q)).count (some p) = l.count (some p) + if q = p then 1 else 0 := by
  obtain ⟨hi, he⟩ := List.getElem?_eq_some_iff.mp h
  rw [List.count_set hi, he]
  simp

theorem count_set_none (h : l[i]? = some (some q)) :
    (l.set i none).count (some p) + (if q = p then 1 else 0) = l.count (some p) := by
  obtain ⟨hi, he⟩ := List.getElem?_eq_some_iff.mp h
  have hpos : q = p → 0 < l.count (some p) := by
    rintro rfl
    exact List.count_pos_iff.mpr (List.mem_of_getElem? h)
  rw [List.count_set hi, he]
  by_cases hqp : q = p
  · have := hpos hqp
    simp [hqp]
    omega
  · simp [hqp]

theorem firstIndex_some {test : Option Point → Bool} {j : ℕ} (h : firstIndex test l j = some i) :
    ∃ a v b, l = a ++ v :: b ∧ i = j + a.length ∧ test v = true ∧ ∀ u ∈ a, test u = false := by
  induction l generalizing j with
  | nil => simp [firstIndex] at h
  | cons v l ih =>
    rw [firstIndex] at h
    split at h
    case isTrue ht =>
      obtain rfl := Option.some.inj h
      exact ⟨[], v, l, rfl, rfl, ht, by simp⟩
    case isFalse hf =>
      obtain ⟨a, u, b, rfl, hi, ht, ha⟩ := ih h
      refine ⟨v :: a, u, b, rfl, ?_, ht, List.forall_mem_cons.mpr ⟨by simpa using hf, ha⟩⟩
      rw [hi, List.length_cons]
      omega

theorem firstIndex_none {test : Option Point → Bool} {j : ℕ} (h : firstIndex test l j = none) :
    ∀ v ∈ l, test v = false := by
  induction l generalizing j with
  | nil => simp
  | cons v l ih =>
    rw [firstIndex] at h
    split at h
    case isTrue => simp at h
    case isFalse ht => exact List.forall_mem_cons.mpr ⟨by simpa using ht, ih h⟩

end Lists

theorem faces_some (p q : Point) : faces (some p) (some q) = decide (q = opposite p) := by
  cases p <;> cases q <;> rfl

theorem faces_none (x : Option Point) : faces x none = false := by
  rcases x with - | p
  · rfl
  · cases p <;> rfl

/-- The selection takes the first waiting vehicle that faces the crossing one, the first waiting
vehicle when there is none, and nobody when nobody waits. -/
theorem select_first (g : Globals) (idx : ℕ) :
    (∃ a p b, g.waitingList = a ++ some p :: b ∧
      select g idx = ({ g with key := some p, waitingList := a ++ none :: b }, a.length) ∧
      (faces g.whereAt (some p) = true ∧ (∀ v ∈ a, faces g.whereAt v = false) ∨
        (∀ v ∈ g.waitingList, faces g.whereAt v = false) ∧ ∀ v ∈ a, v = none)) ∨
    (∀ v ∈ g.waitingList, v = none) ∧ select g idx = ({ g with key := none }, idx) := by
  have htake : ∀ {a b : List (Option Point)} {p : Point}, g.waitingList = a ++ some p :: b →
      take { g with key := none } a.length =
        { g with key := some p, waitingList := a ++ none :: b } := by
    intro a b p h
    simp [take, h]
  unfold select
  dsimp only
  split
  case h_1 i hi =>
    obtain ⟨a, v, b, hw, rfl, ht, ha⟩ := firstIndex_some hi
    rw [Nat.zero_add]
    cases v with
    | none => rw [faces_none] at ht; cases ht
    | some p => exact Or.inl ⟨a, p, b, hw, by rw [htake hw], Or.inl ⟨ht, ha⟩⟩
  case h_2 hf =>
    split
    case h_1 i hi =>
      obtain ⟨a, v, b, hw, rfl, ht, ha⟩ := firstIndex_some hi
      rw [Nat.zero_add]
      obtain ⟨p, rfl⟩ := Option.isSome_iff_exists.mp ht
      refine Or.inl ⟨a, p, b, hw, by rw [htake hw], Or.inr ⟨firstIndex_none hf, fun v hv => ?_⟩⟩
      simpa using ha v hv
    case h_2 hn =>
      refine Or.inr ⟨fun v hv => ?_, rfl⟩
      simpa using firstIndex_none hn v hv

theorem select_cases (g : Globals) (idx : ℕ) :
    (∃ i p, g.waitingList[i]? = some (some p) ∧
      select g idx = ({ g with key := some p, waitingList := g.waitingList.set i none }, i)) ∨
    (∀ v ∈ g.waitingList, v = none) ∧ select g idx = ({ g with key := none }, idx) := by
  obtain ⟨a, p, b, hw, hs, -⟩ | hn := select_first g idx
  · refine Or.inl ⟨a.length, p, by simp [hw], ?_⟩
    rw [hs, hw]
    simp
  · exact Or.inr hn

section Arrive

variable {g : Globals} {p : Point}

theorem arrive_none (h : (readStart g).start = none) : arrive g = readStart g := by
  simp only [arrive, h]

theorem arrive_some (h : (readStart g).start = some p) : arrive g = { readStart g with
    waitingList := g.waitingList.set g.waitingIndex (some p)
    waitingIndex := g.waitingIndex + 1 } := by
  simp only [arrive, h]
  rfl

end Arrive

section Work

variable {g : Globals} {p : Point}

theorem work_frame (p : Point) (g : Globals) : ∃ jc pl i pr w f, work p g = { g with
    jobCount := jc, passedList := pl, passedIndex := i, process := pr, whereAt := w, finish := f } := by
  unfold work
  dsimp only
  split_ifs <;> exact ⟨_, _, _, _, _, _, rfl⟩

theorem work_enter (h : g.process p = 0) (hc : g.jobCount p ≠ g.pCount p) :
    work p g = { g with process := Function.update g.process p 1, whereAt := some p } := by
  simp [work, h, hc]

theorem work_leave (h : g.process p = 1) :
    work p g = { g with
      passedList := g.passedList.set g.passedIndex (some p)
      passedIndex := g.passedIndex + 1
      jobCount := Function.update g.jobCount p (g.jobCount p + 1)
      process := Function.update g.process p 0
      whereAt := none
      finish := if g.jobCount p + 1 = g.pCount p then Function.update g.finish p true
        else g.finish } := by
  by_cases hc : g.jobCount p + 1 = g.pCount p <;> simp [work, h, hc]

end Work

namespace Core

variable {L : List Point} {hand : Option Point} {g : Globals}

theorem waitingIndex_lt (h : Core L hand g) (hL : L.length ≤ 20) : g.waitingIndex < 20 := by
  have := h.waitingIndex
  omega

theorem print (h : Core L hand g) : Core L hand (clearPassed (printProgress g)) := by
  refine ⟨h.list, h.pCount, h.conserve, h.finish, h.waiting_length, h.listIndex_pos, h.waitingIndex,
    h.free, fun p => ?_⟩
  have hp := h.printed p
  simp only [clearPassed, printProgress, List.flatMap_append, List.count_append,
    List.flatMap_singleton, count_reduceOption, List.count_replicate]
  simpa using hp

theorem slot_free (h : Core L hand g) (hL : L.length ≤ 20) :
    g.waitingList[g.waitingIndex]? = some none :=
  h.free _ le_rfl (h.waitingIndex_lt hL)

theorem arrive (h : Core L none g) (hL : L.length ≤ 20) : Core L none (arrive g) := by
  have hpos := h.listIndex_pos
  have hidx := h.waitingIndex
  rcases Nat.lt_or_ge g.listIndex L.length with hi | hi
  · have hstart : (readStart g).start = some L[g.listIndex] := by
      simp [readStart, h.list, hi]
    have hslot := h.slot_free hL
    rw [arrive_some hstart]
    refine ⟨h.list, h.pCount, fun p => ?_, h.finish, by simp [h.waiting_length], by simp [readStart],
      by simp only [readStart]; omega, fun j hj hlt => ?_, h.printed⟩
    · have hc := h.conserve p
      rw [List.drop_eq_getElem_cons hi, List.count_cons] at hc
      simp only [readStart, count_set_some hslot]
      simp only [beq_iff_eq] at hc
      omega
    · dsimp only at hj ⊢
      rw [List.getElem?_set_ne (by omega)]
      exact h.free j (by omega) hlt
  · have hstart : (readStart g).start = none := by
      simp [readStart, h.list, hi]
    rw [arrive_none hstart]
    refine ⟨h.list, h.pCount, fun p => ?_, h.finish, h.waiting_length, by simp [readStart],
      by simp only [readStart]; omega, h.free, h.printed⟩
    have hc := h.conserve p
    rw [List.drop_eq_nil_of_le hi] at hc
    simp only [readStart, List.drop_eq_nil_of_le (show L.length ≤ g.listIndex + 1 by omega)]
    exact hc

theorem arrive_nonempty (h : Core L none g) (hL : L.length ≤ 20) (hi : g.listIndex < L.length) :
    ∃ p, some p ∈ (Intersection.arrive g).waitingList := by
  refine ⟨L[g.listIndex], List.mem_of_getElem? (i := g.waitingIndex) ?_⟩
  have hlt := h.waitingIndex_lt hL
  simp [Intersection.arrive, readStart, h.list, hi, h.waiting_length, hlt]

theorem take {i : ℕ} {p : Point} (h : Core L none g) (hi : g.waitingList[i]? = some (some p)) :
    Core L (some p) { g with key := some p, waitingList := g.waitingList.set i none } := by
  refine ⟨h.list, h.pCount, fun r => ?_, h.finish, by simp [h.waiting_length], h.listIndex_pos,
    h.waitingIndex, fun j hj hlt => ?_, h.printed⟩
  · have hc := h.conserve r
    rw [← count_set_none hi] at hc
    simpa [Nat.add_assoc] using hc
  · rw [List.getElem?_set]
    split
    case isTrue he => simp [h.waiting_length, he ▸ hlt]
    case isFalse => exact h.free j hj hlt

theorem lt_waitingIndex {i : ℕ} {p : Point} (h : Core L hand g)
    (hi : g.waitingList[i]? = some (some p)) : i < g.waitingIndex := by
  by_contra hge
  have hlt := (List.getElem?_eq_some_iff.mp hi).1
  rw [h.waiting_length] at hlt
  simp [h.free i (by omega) hlt] at hi

theorem putBack {i : ℕ} {p : Point} (h : Core L (some p) g) (hlt : i < g.waitingIndex)
    (hi : g.waitingList[i]? = some none) :
    Core L none { g with waitingList := g.waitingList.set i (some p) } := by
  refine ⟨h.list, h.pCount, fun r => ?_, h.finish, by simp [h.waiting_length], h.listIndex_pos,
    h.waitingIndex, fun j hj hj' => ?_, h.printed⟩
  · have hc := h.conserve r
    simp only [count_set_some hi, reduceCtorEq, if_false]
    simp only [Option.some.injEq] at hc
    omega
  · dsimp only at hj ⊢
    rw [List.getElem?_set_ne (by omega)]
    exact h.free j hj hj'

theorem not_finish {p : Point} (h : Core L hand g)
    (hp : hand = some p ∨ g.process p ≠ 0 ∨ some p ∈ g.waitingList) :
    g.finish p = false ∧ g.jobCount p ≠ g.pCount p := by
  have hc := h.conserve p
  have hlt : g.jobCount p < L.count p := by
    rcases hp with rfl | hp | hp
    · simp at hc; omega
    · omega
    · have := List.count_pos_iff.mpr hp
      omega
  refine ⟨?_, by rw [h.pCount]; omega⟩
  rw [Bool.eq_false_iff]
  intro hf
  have := (h.finish p).mp hf
  omega

theorem enter {p : Point} (h : Core L (some p) g) (hp : g.process p = 0) :
    Core L none (work p g) := by
  rw [work_enter hp (h.not_finish (Or.inl rfl)).2]
  refine ⟨h.list, h.pCount, fun r => ?_, h.finish, h.waiting_length, h.listIndex_pos,
    h.waitingIndex, h.free, h.printed⟩
  have hc := h.conserve r
  rcases eq_or_ne r p with rfl | hr
  · simp [hp] at hc ⊢
    omega
  · simp only [Option.some.injEq, if_neg hr.symm] at hc
    simpa [Function.update_of_ne hr] using hc

theorem leave {p : Point} (h : Core L none g) (hp : g.process p = 1) (hidx : g.passedIndex = 0)
    (hlist : g.passedList = List.replicate 10 none) : Core L none (work p g) := by
  have hfin := h.not_finish (Or.inr (Or.inl (by rw [hp]; decide)))
  rw [work_leave hp]
  refine ⟨h.list, h.pCount, fun r => ?_, fun r => ?_, h.waiting_length, h.listIndex_pos,
    h.waitingIndex, h.free, fun r => ?_⟩
  · have hc := h.conserve r
    rcases eq_or_ne r p with rfl | hr
    · simp [hp] at hc ⊢
      omega
    · simpa [Function.update_of_ne hr] using hc
  · have hf := h.finish r
    rcases eq_or_ne r p with rfl | hr
    · simp only [Function.update_self, h.pCount]
      split
      case isTrue he => simp [he]
      case isFalse he => simp [he, hfin.1]
    · split <;> simpa [Function.update_of_ne hr] using hf
  · have hq := h.printed r
    have hslot : g.passedList[g.passedIndex]? = some none := by simp [hidx, hlist]
    simp only [count_set_some hslot]
    rcases eq_or_ne r p with rfl | hr
    · simp; omega
    · simpa [Function.update_of_ne hr, hr.symm] using hq

theorem exists_waiting (h : Core L none g) (hL : L.length ≤ 20) (hp : ∀ p, g.process p = 0)
    (hf : allFinish g = false) : ∃ p, some p ∈ (Intersection.arrive g).waitingList := by
  rcases Nat.lt_or_ge g.listIndex L.length with hi | hi
  · exact h.arrive_nonempty hL hi
  · obtain ⟨p, hp'⟩ : ∃ p, g.finish p = false := by
      by_contra hall
      push Not at hall
      simp [allFinish, hall] at hf
    have hne : g.jobCount p ≠ L.count p := fun he => by simp [(h.finish p).mpr he] at hp'
    have hc := h.conserve p
    rw [List.drop_eq_nil_of_le hi, hp p] at hc
    have hpos : 0 < g.waitingList.count (some p) := by simp at hc; omega
    refine ⟨p, ?_⟩
    have heq : (Intersection.arrive g).waitingList = g.waitingList := by
      simp [Intersection.arrive, readStart, h.list, hi]
    rw [heq]
    exact List.count_pos_iff.mp hpos

end Core

end OperatingSystem.Intersection
