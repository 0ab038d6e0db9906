import OperatingSystem.Paging.Adversary
import OperatingSystem.Simulator.Comparison

/-! # Second-Chance against OPT

Second-Chance loads pages with a clear bit, so a page may be evicted before its
first hit. Its `page_fault` stays within `2k - 1` times the one of OPT for `k`
frames, and no smaller factor bounds it.
-/

namespace OperatingSystem.Simulator

open Paging

variable {n : ℕ} {r : List ℤ}

/-- The resident pages of Second-Chance are those of the textbook queue. -/
theorem secondChance_resident (hn : 1 ≤ n) (h0 : ∀ p ∈ r, 0 ≤ p) (i : ℕ) (hi : i ≤ r.length) :
    Method.secondChance.resident n r i = keys (secondChanceQueue n r i) := by
  obtain ⟨s, hs, hr, hq⟩ := secondChance_queue hn h0 i hi
  have hw := hr.wellFormed
  rw [Method.secondChance.resident_eq hs, ← hq]
  ext p
  rw [mem_keys, queue_fst (hw.bits_length.trans hw.table.length_eq.symm),
    (circular_perm s).mem_iff, Frames.resident, List.mem_toFinset]

theorem secondChance_pageFault (hn : 1 ≤ n) (h0 : ∀ p ∈ r, 0 ≤ p) :
    ∃ t, Method.secondChance.run n r = some t ∧
      t.pageFault = faultCount r (fun i => keys (secondChanceQueue n r i)) r.length := by
  obtain ⟨t, ht, hf⟩ := Method.run_pageFault (m := .secondChance) hn h0 (by simp)
  refine ⟨t, ht, ?_⟩
  rw [hf]
  exact faultCount_congr fun i hi => secondChance_resident hn h0 i hi.le

/-- With `k` frames Second-Chance computes at most `2k - 1` times the `page_fault` of OPT. -/
theorem secondChance_competitive {k : ℕ} (hk : 1 ≤ k) (h0 : ∀ p ∈ r, 0 ≤ p) :
    ∃ s t, Method.opt.run k r = some s ∧ Method.secondChance.run k r = some t ∧
      t.pageFault ≤ (2 * k - 1) * s.pageFault := by
  obtain ⟨s, hs, hf⟩ := Method.run_pageFault (m := .opt) hk h0 (by simp)
  obtain ⟨t, ht, hf'⟩ := secondChance_pageFault hk h0
  refine ⟨s, t, hs, ht, ?_⟩
  rw [hf, hf']
  exact faultCount_secondChance_le hk rfl (fun i hi => secondChanceQueue_succ hi)
    Method.resident_zero (Method.resident_lazy hk h0 (by simp))

/-- A string on which Second-Chance evicts a page before its first hit. -/
theorem secondChance_competitive_two_frames :
    ∃ s t, Method.opt.run 2 [1, 2, 2, 0, 1, 0, 0] = some s ∧
      Method.secondChance.run 2 [1, 2, 2, 0, 1, 0, 0] = some t ∧
      t.pageFault ≤ (2 * 2 - 1) * s.pageFault :=
  secondChance_competitive (by decide) (by decide)

theorem states_eq_queue {Q : ℕ → List (ℤ × Bool)} (h0 : Q 0 = [])
    (hQ : ∀ i (hi : i < r.length), ChanceStep n r[i] (Q i) (Q (i + 1))) :
    ∀ i, i ≤ r.length → Q i = secondChanceQueue n r i := by
  intro i
  induction i with
  | zero => intro _; exact h0
  | succ i ih =>
    intro hi
    have hstep : Q (i + 1) = secondChance n r[i] (Q i) := hQ i hi
    rw [hstep, ih (by omega), secondChanceQueue_succ hi]

theorem Serves.pageFault {m : ℕ} {q : List (ℤ × Bool)} (hn : 1 ≤ n) (h0 : ∀ p ∈ r, 0 ≤ p)
    (h : Serves (ChanceStep n) keys [] r m q) :
    ∃ t, Method.secondChance.run n r = some t ∧ t.pageFault = m := by
  obtain ⟨Q, hQ0, hQ, hm⟩ := h.states
  obtain ⟨t, ht, hf⟩ := secondChance_pageFault hn h0
  refine ⟨t, ht, ?_⟩
  rw [hf, ← hm]
  exact faultCount_congr fun i hi => congrArg keys (states_eq_queue hQ0 hQ i hi.le).symm

/-- For two frames or more and any number `m` of rounds, some string of `k + 1` pages costs
Second-Chance exactly `k + m (2k - 1)` page faults where OPT needs at most `k + m`. -/
theorem secondChance_lower_bound {k : ℕ} (hk : 2 ≤ k) (m : ℕ) :
    ∃ r : List ℤ, (∀ p ∈ r, 0 ≤ p ∧ p ≤ k) ∧
      ∃ s t, Method.opt.run k r = some s ∧ Method.secondChance.run k r = some t ∧
        s.pageFault ≤ k + m ∧ t.pageFault = k + m * (2 * k - 1) := by
  obtain ⟨j, rfl⟩ : ∃ j, k = j + 2 := ⟨k - 2, by omega⟩
  let page : ℕ → ℤ := fun i => i
  have hpages : (List.range (j + 3)).map page =
      page 0 :: (((List.range j).map fun i => page (i + 1)) ++ [page (j + 1)] ++ [page (j + 2)]) := by
    rw [List.range_succ, List.range_succ, List.range_succ_eq_map]
    simp [List.map_map, Function.comp_def]
  have hnodup : ((List.range (j + 3)).map page).Nodup :=
    List.nodup_range.map fun a b h => by simpa [page] using h
  rw [hpages] at hnodup
  obtain ⟨r, q, S, hq, hS, hr⟩ := exists_serves (k := j + 2) m (by simp) hnodup
  rw [← hpages] at hr
  have hbound : ∀ p ∈ r, 0 ≤ p ∧ p ≤ ((j + 2 : ℕ) : ℤ) := by
    intro p hp
    obtain ⟨i, hi, rfl⟩ := List.mem_map.mp (hr p hp)
    rw [List.mem_range] at hi
    simp only [page]
    omega
  have h0 := fun p hp => (hbound p hp).1
  obtain ⟨T, hT⟩ := hS.schedule
  obtain ⟨s, hs, hf⟩ := Method.run_pageFault (m := .opt) (n := j + 2) (by omega) h0 (by simp)
  have hleast := isLeast_faults_of_farthest Method.resident_zero
    (opt_farthest (n := j + 2) (by omega) h0)
  obtain ⟨t, ht, hf'⟩ := Serves.pageFault (by omega) h0 hq
  refine ⟨r, hbound, s, t, hs, ht, ?_, hf'⟩
  rw [hf, ← hT]
  exact hleast.2 ⟨T, rfl⟩

theorem secondChance_lower_bound_two_frames :
    ∃ r : List ℤ, (∀ p ∈ r, 0 ≤ p ∧ p ≤ (2 : ℕ)) ∧
      ∃ s t, Method.opt.run 2 r = some s ∧ Method.secondChance.run 2 r = some t ∧
        s.pageFault ≤ 2 + 1 ∧ t.pageFault = 2 + 1 * (2 * 2 - 1) :=
  secondChance_lower_bound (by decide) 1

end OperatingSystem.Simulator
