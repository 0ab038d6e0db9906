import OperatingSystem.Paging.Belady
import OperatingSystem.Simulator.Refinement

/-! # Comparing the branches

OPT computes the minimum number of faults over all feasible schedules, and the
other branches are feasible schedules. FIFO and LRU are bounded queues, which
costs them at most a factor of the number of frames. The frames of LRU hold the
most recent pages, so more frames hold a superset.
-/

namespace OperatingSystem.Simulator

open Paging

variable {n : ℕ} {r : List ℤ}

theorem opt_farthest (hn : 1 ≤ n) (h0 : ∀ p ∈ r, 0 ≤ p) (i : ℕ) (hi : i < r.length) :
    Farthest n r[i] (r.drop (i + 1)) (Method.opt.resident n r i)
      (Method.opt.resident n r (i + 1)) := by
  obtain ⟨s, t, hs, ht, hr, _, hstep⟩ := Method.opt.run_step hn h0 (by simp) hi
  rw [Method.opt.resident_eq hs, Method.opt.resident_eq ht]
  exact hstep.refers.farthest hr.wellFormed.table.nodup

/-- `page_fault` of the OPT branch is the least fault count of all feasible schedules, and no
branch computes a smaller one. -/
theorem opt_optimal (hn : 1 ≤ n) (h0 : ∀ p ∈ r, 0 ≤ p) :
    ∃ s, Method.opt.run n r = some s ∧
      IsLeast (Set.range (Schedule.faults (α := ℤ) (k := n) (r := r))) s.pageFault ∧
      ∀ m : Method, (m = .lru → r.length ≤ 31) →
        ∃ t, m.run n r = some t ∧ s.pageFault ≤ t.pageFault := by
  obtain ⟨s, hs, hf⟩ := Method.run_pageFault (m := .opt) hn h0 (by simp)
  have hleast := isLeast_faults_of_farthest Method.resident_zero (opt_farthest hn h0)
  refine ⟨s, hs, hf ▸ hleast, fun m hm => ?_⟩
  obtain ⟨t, ht, hf'⟩ := Method.run_pageFault hn h0 hm
  refine ⟨t, ht, ?_⟩
  rw [hf, hf']
  exact hleast.2 ⟨.ofLazy Method.resident_zero (m.resident_lazy hn h0 hm), rfl⟩

theorem opt_optimal_two_frames :
    ∃ s, Method.opt.run 2 [1, 2, 3, 1, 2] = some s ∧
      IsLeast (Set.range (Schedule.faults (α := ℤ) (k := 2) (r := [1, 2, 3, 1, 2]))) s.pageFault ∧
      ∀ m : Method, (m = .lru → [(1 : ℤ), 2, 3, 1, 2].length ≤ 31) →
        ∃ t, m.run 2 [1, 2, 3, 1, 2] = some t ∧ s.pageFault ≤ t.pageFault :=
  opt_optimal (by decide) (by decide)

/-- More frames keep a superset of the pages under LRU, and fault at most as often. -/
theorem lru_inclusion {f g : ℕ} (hf : 1 ≤ f) (hle : f ≤ g) (h0 : ∀ p ∈ r, 0 ≤ p)
    (hm : r.length ≤ 31) :
    (∀ i ≤ r.length, ∃ s s', Method.lru.after f r i = some s ∧ Method.lru.after g r i = some s' ∧
      ∀ p, 0 ≤ p → p ∈ s.pageFrame → p ∈ s'.pageFrame) ∧
    ∃ s s', Method.lru.run f r = some s ∧ Method.lru.run g r = some s' ∧
      s'.pageFault ≤ s.pageFault := by
  have hsub : ∀ i ≤ r.length, Method.lru.resident f r i ⊆ Method.lru.resident g r i := by
    intro i hi
    rw [lru_resident hf h0 hm i hi, lru_resident (hf.trans hle) h0 hm i hi]
    intro p hp
    rw [List.mem_toFinset] at hp ⊢
    exact List.take_subset_take_left _ hle hp
  constructor
  · intro i hi
    obtain ⟨s, hs, hr⟩ := Method.lru.reached hf h0 (fun _ => hm) i hi
    obtain ⟨s', hs', hr'⟩ := Method.lru.reached (hf.trans hle) h0 (fun _ => hm) i hi
    refine ⟨s, s', hs, hs', fun p hp hmem => ?_⟩
    rw [hr.wellFormed.table.mem_iff hp] at hmem
    rw [hr'.wellFormed.table.mem_iff hp]
    have h := hsub i hi
    rw [Method.lru.resident_eq hs, Method.lru.resident_eq hs'] at h
    exact List.mem_toFinset.mp (h (List.mem_toFinset.mpr hmem))
  · obtain ⟨s, hs, hc⟩ := Method.run_pageFault (m := .lru) hf h0 fun _ => hm
    obtain ⟨s', hs', hc'⟩ := Method.run_pageFault (m := .lru) (hf.trans hle) h0 fun _ => hm
    refine ⟨s, s', hs, hs', ?_⟩
    rw [hc, hc']
    exact faultCount_anti fun i hi => hsub i hi.le

theorem lru_inclusion_two_three :
    (∀ i ≤ [1, 2, 3, 1].length, ∃ s s', Method.lru.after 2 [1, 2, 3, 1] i = some s ∧
      Method.lru.after 3 [1, 2, 3, 1] i = some s' ∧
      ∀ p, 0 ≤ p → p ∈ s.pageFrame → p ∈ s'.pageFrame) ∧
    ∃ s s', Method.lru.run 2 [1, 2, 3, 1] = some s ∧ Method.lru.run 3 [1, 2, 3, 1] = some s' ∧
      s'.pageFault ≤ s.pageFault :=
  lru_inclusion (r := [1, 2, 3, 1]) (f := 2) (g := 3) (by decide) (by decide) (by decide) (by decide)

/-- FIFO faults at most `n` times as often as OPT. -/
theorem fifo_faultCount_le (hn : 1 ≤ n) (h0 : ∀ p ∈ r, 0 ≤ p) :
    faultCount r (Method.fifo.resident n r) r.length ≤
      n * faultCount r (Method.opt.resident n r) r.length := by
  have hq : ∀ i ≤ r.length, Method.fifo.resident n r i = (fifoQueue n r i).reverse.toFinset ∧
      (fifoQueue n r i).length ≤ n := by
    intro i hi
    obtain ⟨s, hs, hr, hc⟩ := fifo_circular hn h0 i hi
    have hperm := circular_perm s
    rw [Method.fifo.resident_eq hs, ← hc, hperm.length_eq]
    refine ⟨?_, hr.wellFormed.table.length_le⟩
    ext p
    simp [Frames.resident, hperm.mem_iff]
  rw [faultCount_congr fun i hi => (hq i hi.le).1]
  refine faultCount_push_le (q := fun i => (fifoQueue n r i).reverse) hn rfl (fun i hi => ?_)
    Method.resident_zero (Method.resident_lazy hn h0 (by simp))
  rw [fifoQueue_succ hi]
  exact push_enqueue hn (hq i hi.le).2

theorem lru_faultCount_le (hn : 1 ≤ n) (h0 : ∀ p ∈ r, 0 ≤ p) (hm : r.length ≤ capacity) :
    faultCount r (Method.lru.resident n r) r.length ≤
      n * faultCount r (Method.opt.resident n r) r.length := by
  rw [faultCount_congr fun i hi => lru_resident hn h0 hm i hi.le]
  refine faultCount_push_le (q := fun i => (recency (r.take i)).take n) hn (by simp [recency])
    (fun i hi => ?_) Method.resident_zero (Method.resident_lazy hn h0 (by simp))
  rw [recency_take_succ hi]
  exact push_touch hn

/-- With `k` frames FIFO and LRU compute at most `k` times the `page_fault` of OPT. -/
theorem competitive {k : ℕ} (hk : 1 ≤ k) (h0 : ∀ p ∈ r, 0 ≤ p) :
    ∃ s, Method.opt.run k r = some s ∧
      (∃ t, Method.fifo.run k r = some t ∧ t.pageFault ≤ k * s.pageFault) ∧
      (r.length ≤ 31 → ∃ t, Method.lru.run k r = some t ∧ t.pageFault ≤ k * s.pageFault) := by
  obtain ⟨s, hs, hf⟩ := Method.run_pageFault (m := .opt) hk h0 (by simp)
  refine ⟨s, hs, ?_, fun hm => ?_⟩
  · obtain ⟨t, ht, hf'⟩ := Method.run_pageFault (m := .fifo) hk h0 (by simp)
    exact ⟨t, ht, by rw [hf, hf']; exact fifo_faultCount_le hk h0⟩
  · obtain ⟨t, ht, hf'⟩ := Method.run_pageFault (m := .lru) hk h0 fun _ => hm
    exact ⟨t, ht, by rw [hf, hf']; exact lru_faultCount_le hk h0 hm⟩

theorem competitive_two_frames :
    ∃ s, Method.opt.run 2 [1, 2, 3, 1] = some s ∧
      (∃ t, Method.fifo.run 2 [1, 2, 3, 1] = some t ∧ t.pageFault ≤ 2 * s.pageFault) ∧
      ([(1 : ℤ), 2, 3, 1].length ≤ 31 →
        ∃ t, Method.lru.run 2 [1, 2, 3, 1] = some t ∧ t.pageFault ≤ 2 * s.pageFault) :=
  competitive (by decide) (by decide)

end OperatingSystem.Simulator
