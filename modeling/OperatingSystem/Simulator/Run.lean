import OperatingSystem.Simulator.Fifo
import OperatingSystem.Simulator.Lru
import OperatingSystem.Simulator.Opt
import OperatingSystem.Simulator.SecondChance

/-! # Whole runs of the simulator

Every branch keeps the frame table well formed from one reference to the next.
Its resident sets are those of a lazy policy, and `page_fault` counts the faults
of that policy, which are the rows marked `F`.
-/

namespace OperatingSystem.Simulator

open Paging

/-- The victims that a branch may choose at reference `i`. -/
def Method.Victim (r : List ℤ) (i : ℕ) (s : Frames) : Method → ℕ → Prop
  | .opt => FarthestFrame r i s.pages
  | .fifo => (· = s.victim)
  | .lru => LeastRecent r i s.pages
  | .secondChance => fun _ => True

structure Reached (n : ℕ) (r : List ℤ) (i : ℕ) (s : Frames) : Prop where
  wellFormed : WellFormed n s
  history : ∀ p ∈ s.pages, p ∈ r.take i
  pageFault : s.pageFault = s.rows.countP Row.fault

variable {n : ℕ} {r : List ℤ} {i : ℕ} {m : Method}

theorem Method.reference_step {page : ℤ} {s : Frames} (hn : 1 ≤ n) (h : Reached n r i s)
    (h0 : 0 ≤ page) (hm : m = .lru → i < capacity) :
    ∃ s', m.reference r i page s = some s' ∧ Step n page (m.Victim r i s) s s' := by
  cases m with
  | opt => exact optReference_step hn h.wellFormed h0
  | fifo =>
    obtain ⟨s', he, hs, _⟩ := fifoReference_step h.wellFormed h0
    exact ⟨s', he, hs⟩
  | lru => exact lruReference_step hn h.wellFormed h0 h.history (hm rfl)
  | secondChance =>
    obtain ⟨s', he, hs, _⟩ := secondChanceReference_step h.wellFormed h0
    exact ⟨s', he, hs⟩

theorem Method.after_succ {s t : Frames} (hi : i < r.length) (hs : m.after n r i = some s)
    (ht : m.reference r i r[i] s = some t) : m.after n r (i + 1) = some (printRow i t) := by
  simp [Method.after, hs, hi, ht]

theorem Refers.subset {page : ℤ} {V : ℕ → Prop} {l l' : List ℤ} {b : Bool}
    (h : Refers n page V l b l') : ∀ p ∈ l', p = page ∨ p ∈ l := by
  cases h with
  | hit => exact fun p hp => Or.inr hp
  | load => intro p hp; simpa [or_comm] using hp
  | evict => exact fun p hp => (List.mem_or_eq_of_mem_set hp).symm

theorem Reached.succ {s t : Frames} {V : ℕ → Prop} (hi : i < r.length) (h : Reached n r i s)
    (hs : Step n r[i] V s t) : Reached n r (i + 1) (printRow i t) := by
  have hw := hs.wellFormed
  refine ⟨⟨hw.table, hw.bits_length, hw.bits, hw.victim_lt, hw.victim_zero⟩, fun p hp => ?_, ?_⟩
  · rw [List.take_succ_eq_append_getElem hi, List.mem_append, List.mem_singleton]
    rcases hs.refers.subset p hp with rfl | hp
    · exact Or.inr rfl
    · exact Or.inl (h.history p hp)
  · simp only [printRow, List.countP_append, hs.rows, hs.pageFault, h.pageFault,
      List.countP_singleton]

/-- No branch leaves its arrays, and every reference starts from well-formed variables. -/
theorem Method.reached (hn : 1 ≤ n) (h0 : ∀ p ∈ r, 0 ≤ p) (hm : m = .lru → r.length ≤ capacity) :
    ∀ i, i ≤ r.length → ∃ s, m.after n r i = some s ∧ Reached n r i s := by
  intro i
  induction i with
  | zero =>
    intro _
    exact ⟨initial n, rfl, initial_wellFormed hn, by simp, rfl⟩
  | succ i ih =>
    intro hi
    obtain ⟨s, hs, hr⟩ := ih (by omega)
    obtain ⟨t, ht, hstep⟩ := m.reference_step hn hr (h0 _ (List.getElem_mem hi))
      fun he => lt_of_lt_of_le hi (hm he)
    exact ⟨printRow i t, m.after_succ hi hs ht, hr.succ hi hstep⟩

theorem Method.run_step (hn : 1 ≤ n) (h0 : ∀ p ∈ r, 0 ≤ p) (hm : m = .lru → r.length ≤ capacity)
    (hi : i < r.length) :
    ∃ s t, m.after n r i = some s ∧ m.after n r (i + 1) = some (printRow i t) ∧
      Reached n r i s ∧ m.reference r i r[i] s = some t ∧ Step n r[i] (m.Victim r i s) s t := by
  obtain ⟨s, hs, hr⟩ := m.reached hn h0 hm i hi.le
  obtain ⟨t, ht, hstep⟩ := m.reference_step hn hr (h0 _ (List.getElem_mem hi))
    fun he => lt_of_lt_of_le hi (hm he)
  exact ⟨s, t, hs, m.after_succ hi hs ht, hr, ht, hstep⟩

def Method.resident (m : Method) (n : ℕ) (r : List ℤ) (i : ℕ) : Finset ℤ :=
  ((m.after n r i).map Frames.resident).getD ∅

theorem Method.resident_eq {s : Frames} (h : m.after n r i = some s) :
    m.resident n r i = s.resident := by
  simp [Method.resident, h]

theorem Method.resident_zero : m.resident n r 0 = ∅ := by
  simp [Method.resident, Method.after, Frames.resident]

theorem Method.resident_lazy (hn : 1 ≤ n) (h0 : ∀ p ∈ r, 0 ≤ p)
    (hm : m = .lru → r.length ≤ capacity) (i : ℕ) (hi : i < r.length) :
    Lazy n r[i] (m.resident n r i) (m.resident n r (i + 1)) := by
  obtain ⟨s, t, hs, ht, hr, _, hstep⟩ := m.run_step hn h0 hm hi
  rw [m.resident_eq hs, m.resident_eq ht]
  exact hstep.refers.toLazy hr.wellFormed.table.nodup

theorem Method.pageFault_eq (hn : 1 ≤ n) (h0 : ∀ p ∈ r, 0 ≤ p)
    (hm : m = .lru → r.length ≤ capacity) :
    ∀ i, i ≤ r.length → ∃ s, m.after n r i = some s ∧
      s.pageFault = faultCount r (m.resident n r) i := by
  intro i
  induction i with
  | zero => intro _; exact ⟨initial n, rfl, by simp [initial]⟩
  | succ i ih =>
    intro hi
    obtain ⟨s, t, hs, ht, hr, _, hstep⟩ := m.run_step hn h0 hm hi
    obtain ⟨s', hs', hf⟩ := ih (by omega)
    obtain rfl : s = s' := Option.some.inj (hs.symm.trans hs')
    have hmem : r[i] ∈ m.resident n r i ↔ r[i] ∈ s.pages := by
      rw [m.resident_eq hs, Frames.resident, List.mem_toFinset]
    refine ⟨printRow i t, ht, ?_⟩
    have hiff := hstep.refers.fault_iff
    rw [faultCount_succ hi, ← hf]
    change t.pageFault = _
    rw [hstep.pageFault]
    by_cases hp : r[i] ∈ s.pages <;> simp_all

theorem Method.run_pageFault (hn : 1 ≤ n) (h0 : ∀ p ∈ r, 0 ≤ p)
    (hm : m = .lru → r.length ≤ capacity) :
    ∃ s, m.run n r = some s ∧ s.pageFault = faultCount r (m.resident n r) r.length :=
  m.pageFault_eq hn h0 hm r.length le_rfl

theorem Table.mem_iff {f l : List ℤ} {page : ℤ} (h : Table n f l) (hp : 0 ≤ page) :
    page ∈ f ↔ page ∈ l := by
  rw [← h.filter_eq, List.mem_filter]
  simp [hp]

/-- After every reference of every branch the occupied frames are a prefix of distinct pages that
were referenced, among them the current one; `replace` marks a page that was absent, and
`page_fault` counts the marked rows. -/
theorem frameTable_invariant (m : Method) (hn : 1 ≤ n) (h0 : ∀ p ∈ r, 0 ≤ p)
    (hm : m = .lru → r.length ≤ 31) (hi : i < r.length) :
    ∃ s s' l, m.after n r i = some s ∧ m.after n r (i + 1) = some s' ∧
      s'.pageFrame = l ++ List.replicate (n - l.length) (-1) ∧
      l.length = min n (r.take (i + 1)).toFinset.card ∧ l.Nodup ∧
      (∀ p ∈ l, 0 ≤ p ∧ p ∈ r.take (i + 1)) ∧ r[i] ∈ l ∧
      (s'.replace = true ↔ r[i] ∉ s.pageFrame) ∧
      s'.rows = s.rows ++ [⟨i + 1, s'.pageFrame, s'.replace⟩] ∧
      s'.pageFault = s'.rows.countP Row.fault := by
  obtain ⟨s, t, hs, ht, hr, _, hstep⟩ := m.run_step hn h0 hm hi
  have hr' := hr.succ hi hstep
  have htable := hr'.wellFormed.table
  have hcard := lazy_card_eq m.resident_zero (m.resident_lazy hn h0 hm) (show i + 1 ≤ r.length from hi)
  rw [m.resident_eq ht, Frames.resident, List.toFinset_card_of_nodup htable.nodup] at hcard
  have hmem := (hstep.refers.toLazy hr.wellFormed.table.nodup).mem
  refine ⟨s, printRow i t, (printRow i t).pages, hs, ht, htable.eq_append, hcard, htable.nodup,
    fun p hp => ⟨htable.nonneg p hp, hr'.history p hp⟩, ?_, ?_, ?_, hr'.pageFault⟩
  · exact List.mem_toFinset.mp hmem
  · rw [hr.wellFormed.table.mem_iff (h0 _ (List.getElem_mem hi))]
    exact hstep.refers.fault_iff
  · simp [printRow, hstep.rows]

/-- Both hypotheses hold of a string on which LRU has to evict. -/
theorem frameTable_invariant_lru :
    ∃ s s' l, Method.lru.after 2 [7, 0, 1] 2 = some s ∧ Method.lru.after 2 [7, 0, 1] 3 = some s' ∧
      s'.pageFrame = l ++ List.replicate (2 - l.length) (-1) ∧
      l.length = min 2 ([7, 0, 1].take 3).toFinset.card ∧ l.Nodup ∧
      (∀ p ∈ l, 0 ≤ p ∧ p ∈ [7, 0, 1].take 3) ∧ 1 ∈ l ∧
      (s'.replace = true ↔ 1 ∉ s.pageFrame) ∧
      s'.rows = s.rows ++ [⟨3, s'.pageFrame, s'.replace⟩] ∧
      s'.pageFault = s'.rows.countP Row.fault :=
  frameTable_invariant (r := [7, 0, 1]) .lru (by decide) (by decide) (by decide) (by decide)

end OperatingSystem.Simulator
