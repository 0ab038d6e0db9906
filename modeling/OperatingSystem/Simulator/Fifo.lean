import OperatingSystem.Paging.Queue
import OperatingSystem.Simulator.Circular

/-! # The FIFO branch

The frames read circularly from the pointer are a first-in-first-out queue. The
pointer stays at the first frame while frames are being filled, and the oldest
page is at the pointer from the first eviction on.
-/

namespace OperatingSystem.Simulator

open Paging

variable {n : ℕ} {page : ℤ} {s : Frames}

theorem fifoEvict_eq (h : s.victim < s.pageFrame.length) :
    fifoEvict page s = some { placed page s s.victim with victim := s.victim + 1 } := by
  simp [fifoEvict, place_eq h, placed]

theorem circular_fifoEvict (h : WellFormed n s) (h0 : 0 ≤ page) (hp : page ∉ s.pages)
    (hl : s.pages.length = n) :
    ({ placed page s s.victim with victim := s.victim + 1 } : Frames).circular =
      s.circular.tail ++ [page] := by
  obtain ⟨a, x, b, he, ha⟩ := split_at (l := s.pages) (hl ▸ h.victim_lt)
  have ht := h.table.evict hp h0 hl s.victim
  have hset : s.pages.set s.victim page = a ++ page :: b := by rw [he, ← ha]; simp
  have hnn : ∀ p ∈ b ++ a ++ [page], 0 ≤ p := by
    intro p hm
    apply ht.nonneg
    rw [hset]
    simp only [List.mem_append, List.mem_cons] at hm ⊢
    tauto
  rw [h.circular_eq_rotate hl]
  simp only [Frames.circular, placed, h.table.eq_of_full hl, hset]
  rw [he, ← ha, rotate_middle, rotate_middle_succ, List.filter_eq_self.mpr (by simpa using hnn)]
  rfl

/-- One iteration of the FIFO branch overwrites the frame at the pointer, and its circular reading
takes one step of the bounded queue. -/
theorem fifoReference_step (h : WellFormed n s) (h0 : 0 ≤ page) :
    ∃ s', fifoReference page s = some s' ∧ Step n page (· = s.victim) s s' ∧
      s'.circular = enqueue n page s.circular := by
  have hmem := (circular_perm s).mem_iff (a := page)
  have hlen := (circular_perm s).length_eq
  have hvict : s.victim < s.pageFrame.length := h.table.length_eq ▸ h.victim_lt
  by_cases hp : page ∈ s.pages
  · refine ⟨{ s with replace := false }, ?_, .of_hit h hp, ?_⟩
    · rw [fifoReference, refer_hit h hp, Option.map_some]
      exact congrArg some (wrap_eq_self hvict)
    · rw [enqueue, if_pos (hmem.mpr hp)]
      rfl
  rcases h.table.length_le.lt_or_eq with hl | hl
  · refine ⟨placed page s s.pages.length, ?_, .of_load h h0 hp hl, ?_⟩
    · rw [fifoReference, refer_load h h0 hp hl, Option.map_some]
      exact congrArg some (wrap_eq_self (by simpa [placed] using hvict))
    · rw [enqueue, if_neg (mt hmem.mp hp), if_pos (by omega), h.circular_eq_pages hl,
        ← pages_load h h0 hp hl]
      simp [Frames.circular, Frames.pages, placed, h.victim_zero hl]
  · refine ⟨wrap { placed page s s.victim with victim := s.victim + 1 }, ?_,
      Step.advance (V := (· = s.victim)) h h0 hp hl h.victim_lt rfl h.bits_length h.bits, ?_⟩
    · rw [fifoReference, refer_evict h hp hl, fifoEvict_eq hvict, Option.map_some]
    · rw [wrap_circular, circular_fifoEvict h h0 hp hl, enqueue, if_neg (mt hmem.mp hp),
        if_neg (by omega)]

end OperatingSystem.Simulator
