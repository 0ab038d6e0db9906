import OperatingSystem.Simulator.Run

/-! # The branches as textbook algorithms

Over whole runs the frames of FIFO and of Second-Chance, read circularly from
the pointer, are the queues of the textbook algorithms, and the frames of LRU
hold the most recently used pages.
-/

namespace OperatingSystem.Simulator

open Paging

variable {n : ℕ} {r : List ℤ}

def fifoQueue (n : ℕ) (r : List ℤ) (i : ℕ) : List ℤ :=
  (r.take i).foldl (fun q p => enqueue n p q) []

theorem fifoQueue_succ {i : ℕ} (hi : i < r.length) :
    fifoQueue n r (i + 1) = enqueue n r[i] (fifoQueue n r i) := by
  rw [fifoQueue, List.take_succ_eq_append_getElem hi, List.foldl_append]
  rfl

/-- The FIFO frames read circularly from the pointer are the queue. -/
theorem fifo_circular (hn : 1 ≤ n) (h0 : ∀ p ∈ r, 0 ≤ p) :
    ∀ i, i ≤ r.length → ∃ s, Method.fifo.after n r i = some s ∧ Reached n r i s ∧
      s.circular = fifoQueue n r i := by
  intro i
  induction i with
  | zero =>
    intro _
    obtain ⟨s, hs, hr⟩ := Method.fifo.reached hn h0 (by simp) 0 (by omega)
    obtain rfl : initial n = s := Option.some.inj hs
    refine ⟨initial n, rfl, hr, ?_⟩
    rw [hr.wellFormed.circular_eq_pages (by rw [initial_pages]; exact hn), initial_pages]
    rfl
  | succ i ih =>
    intro hi
    obtain ⟨s, hs, hr, hc⟩ := ih (by omega)
    obtain ⟨t, ht, hstep, hc'⟩ := fifoReference_step hr.wellFormed (h0 _ (List.getElem_mem hi))
    refine ⟨printRow i t, Method.fifo.after_succ hi hs ht, hr.succ hi hstep, ?_⟩
    rw [fifoQueue_succ hi, ← hc]
    exact hc'

/-- The resident pages of LRU are the most recently used ones. -/
theorem lru_resident (hn : 1 ≤ n) (h0 : ∀ p ∈ r, 0 ≤ p) (hm : r.length ≤ capacity) :
    ∀ i, i ≤ r.length →
      Method.lru.resident n r i = ((recency (r.take i)).take n).toFinset := by
  intro i
  induction i with
  | zero => intro _; simp [Method.resident_zero, recency]
  | succ i ih =>
    intro hi
    obtain ⟨s, t, hs, ht, hr, _, hstep⟩ := Method.lru.run_step hn h0 (fun _ => hm) hi
    have ih := ih (by omega)
    rw [Method.lru.resident_eq hs] at ih
    rw [Method.lru.resident_eq ht]
    exact hstep.refers.recency hi hn hr.wellFormed.table.nodup ih

def secondChanceQueue (n : ℕ) (r : List ℤ) (i : ℕ) : List (ℤ × Bool) :=
  (r.take i).foldl (fun q p => secondChance n p q) []

theorem secondChanceQueue_succ {i : ℕ} (hi : i < r.length) :
    secondChanceQueue n r (i + 1) = secondChance n r[i] (secondChanceQueue n r i) := by
  rw [secondChanceQueue, List.take_succ_eq_append_getElem hi, List.foldl_append]
  rfl

/-- A queue entry as a frame and its reference bit. -/
def cell (c : ℤ × Bool) : ℤ × ℤ := (c.1, if c.2 then 1 else 0)

theorem WellFormed.cells_eq {s : Frames} (h : WellFormed n s) : s.cells = s.queue.map cell := by
  have hid : ∀ c ∈ s.cells, (cell ∘ entry) c = id c := by
    rintro ⟨p, b⟩ hc
    have hz := List.mem_rotate.mp (List.mem_of_mem_filter hc)
    rcases h.bits b (List.of_mem_zip hz).2 with rfl | rfl <;> rfl
  rw [Frames.queue, List.map_map, List.map_congr_left hid, List.map_id]

theorem secondChance_queue (hn : 1 ≤ n) (h0 : ∀ p ∈ r, 0 ≤ p) :
    ∀ i, i ≤ r.length → ∃ s, Method.secondChance.after n r i = some s ∧ Reached n r i s ∧
      s.queue = secondChanceQueue n r i := by
  intro i
  induction i with
  | zero =>
    intro _
    obtain ⟨s, hs, hr⟩ := Method.secondChance.reached hn h0 (by simp) 0 (by omega)
    obtain rfl : initial n = s := Option.some.inj hs
    have hq : (initial n).queue.map Prod.fst = [] := by
      rw [queue_fst (by simp [initial]),
        hr.wellFormed.circular_eq_pages (by rw [initial_pages]; exact hn), initial_pages]
    exact ⟨initial n, rfl, hr, List.map_eq_nil_iff.mp hq⟩
  | succ i ih =>
    intro hi
    obtain ⟨s, hs, hr, hq⟩ := ih (by omega)
    obtain ⟨t, ht, hstep, hq'⟩ :=
      secondChanceReference_step hr.wellFormed (h0 _ (List.getElem_mem hi))
    refine ⟨printRow i t, Method.secondChance.after_succ hi hs ht, hr.succ hi hstep, ?_⟩
    rw [secondChanceQueue_succ hi, ← hq]
    exact hq'

/-- After every reference the frames and bits read circularly from the pointer are the textbook
queue, the pointer is inside the frames, and both fault at the same references. -/
theorem secondChance_refines_queue (hn : 1 ≤ n) (h0 : ∀ p ∈ r, 0 ≤ p) {i : ℕ} (hi : i ≤ r.length) :
    ∃ s, Method.secondChance.after n r i = some s ∧ s.victim < n ∧
      s.cells = (secondChanceQueue n r i).map cell ∧
      ∀ h : i < r.length, ∃ s', Method.secondChance.after n r (i + 1) = some s' ∧
        (s'.replace = true ↔ r[i] ∉ (secondChanceQueue n r i).map Prod.fst) := by
  obtain ⟨s, hs, hr, hq⟩ := secondChance_queue hn h0 i hi
  have hw := hr.wellFormed
  refine ⟨s, hs, hw.victim_lt, by rw [hw.cells_eq, hq], fun h => ?_⟩
  obtain ⟨t, ht, hstep, _⟩ := secondChanceReference_step hw (h0 _ (List.getElem_mem h))
  refine ⟨printRow i t, Method.secondChance.after_succ h hs ht, ?_⟩
  rw [← hq, queue_fst (hw.bits_length.trans hw.table.length_eq.symm), (circular_perm s).mem_iff]
  exact hstep.refers.fault_iff

/-- All bits are set when page 4 evicts, with the pointer at the first frame. -/
theorem secondChance_refines_queue_two_frames :
    ∃ s, Method.secondChance.after 2 [1, 2, 1, 2, 4] 4 = some s ∧ s.victim < 2 ∧
      s.cells = (secondChanceQueue 2 [1, 2, 1, 2, 4] 4).map cell ∧
      ∀ _ : 4 < [(1 : ℤ), 2, 1, 2, 4].length,
        ∃ s', Method.secondChance.after 2 [1, 2, 1, 2, 4] 5 = some s' ∧
          (s'.replace = true ↔ 4 ∉ (secondChanceQueue 2 [1, 2, 1, 2, 4] 4).map Prod.fst) :=
  secondChance_refines_queue (by decide) (by decide) (by decide)

end OperatingSystem.Simulator
