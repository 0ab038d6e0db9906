import OperatingSystem.Paging.Queue
import OperatingSystem.Paging.Scan
import OperatingSystem.Simulator.Table

/-! # The LRU branch

Each fault on full frames searches the history backwards once per frame. Within
the capacity of `page_reference` every resident page is found before the sentinel
99, so the search ends at the page with the smallest last reference, and the
resident pages are the most recent ones.
-/

namespace OperatingSystem.Simulator

open Paging

variable {r : List ℤ} {i : ℕ}

/-- The declared number of elements of `page_reference`. -/
def capacity : ℕ := 31

def lastIndex (r : List ℤ) (i : ℕ) (p : ℤ) : ℕ := (lastUse p r i).getD 0

/-- Frame `j` holds a page whose last reference before `i` is earliest. -/
def LeastRecent (r : List ℤ) (i : ℕ) (f : List ℤ) (j : ℕ) : Prop :=
  ∃ p, f[j]? = some p ∧ ∀ q ∈ f, lastIndex r i p ≤ lastIndex r i q

theorem lastUse_eq {p : ℤ} (h : p ∈ r.take i) :
    lastUse p r i = some (lastIndex r i p) ∧ lastIndex r i p < i := by
  induction i with
  | zero => simp at h
  | succ i ih =>
    unfold lastIndex
    rw [lastUse]
    split
    case isTrue => simp
    case isFalse hne =>
      have hp : p ∈ r.take i := by
        rw [List.take_add_one, List.mem_append, Option.mem_toList] at h
        exact h.resolve_right hne
      obtain ⟨he, hlt⟩ := ih hp
      exact ⟨by rw [he]; rfl, by change lastIndex r i p < i + 1; omega⟩

theorem lastIndex_succ_self (h : i < r.length) : lastIndex r (i + 1) r[i] = i := by
  simp [lastIndex, lastUse, h]

theorem lastIndex_succ_of_ne {p : ℤ} (h : i < r.length) (hne : p ≠ r[i]) :
    lastIndex r (i + 1) p = lastIndex r i p := by
  simp [lastIndex, lastUse, h, Ne.symm hne]

theorem recency_pairwise (hi : i ≤ r.length) :
    (recency (r.take i)).Pairwise fun p q => lastIndex r i q < lastIndex r i p := by
  induction i with
  | zero => simp [recency]
  | succ i ih =>
    have ih := ih (by omega)
    have hn : (recency (r.take i)).Nodup := recency_nodup
    rw [recency_take_succ hi, touch]
    refine List.pairwise_cons.mpr ⟨fun q hq => ?_, ?_⟩
    · obtain ⟨hne, hq⟩ := hn.mem_erase_iff.mp hq
      rw [lastIndex_succ_self hi, lastIndex_succ_of_ne hi hne]
      exact (lastUse_eq (mem_recency.mp hq)).2
    · refine (ih.sublist List.erase_sublist).imp_of_mem fun {p q} hp hq h => ?_
      rw [lastIndex_succ_of_ne hi (hn.mem_erase_iff.mp hp).1,
        lastIndex_succ_of_ne hi (hn.mem_erase_iff.mp hq).1]
      exact h

/-- The search scans for the page with the smallest last reference. -/
theorem lruVictim_eq_scan {f : List ℤ} (hf : ∀ q ∈ f, q ∈ r.take i) (j : ℕ) (location victim : ℤ) :
    lruVictim r i f j location victim =
      scan (fun q => (lastIndex r i q : ℤ)) f j location victim := by
  induction f generalizing j location victim with
  | nil => rfl
  | cons p f ih =>
    have hp := (lastUse_eq (hf p List.mem_cons_self)).1
    have ih := ih (fun q h => hf q (List.mem_cons_of_mem _ h))
    rw [lruVictim, hp, scan]
    simp only [ih, gt_iff_lt]

theorem lruReference_step {n : ℕ} {page : ℤ} {s : Frames} (hn : 1 ≤ n) (h : WellFormed n s)
    (h0 : 0 ≤ page) (hs : ∀ p ∈ s.pages, p ∈ r.take i) (hi : i < capacity) :
    ∃ s', lruReference r i page s = some s' ∧ Step n page (LeastRecent r i s.pages) s s' := by
  apply refer_step h h0
  intro hp hl
  have hf := h.table.eq_of_full hl
  obtain ⟨_, hle⟩ | ⟨a, p, b, hpages, he, _, hle⟩ :=
    scan_cases (fun q => (lastIndex r i q : ℤ)) s.pages 0 99 (-1)
  · obtain ⟨q, hq⟩ := List.exists_mem_of_ne_nil s.pages (List.ne_nil_of_length_pos (by omega))
    have hq' := hle q hq
    have hlt := (lastUse_eq (hs q hq)).2
    unfold capacity at hi
    omega
  · have hj : a.length < n := by rw [← hl, hpages]; simp
    have hleast : LeastRecent r i s.pages a.length :=
      ⟨p, by simp [hpages], fun q hq => Int.ofNat_le.mp (hle q hq)⟩
    refine ⟨a.length, hj, hleast, ?_⟩
    rw [hf, lruVictim_eq_scan hs, he, Nat.zero_add]

section Recency

variable {n : ℕ} {l l' q : List ℤ} {page y : ℤ}

theorem LeastRecent.eq_last {j : ℕ} (h : LeastRecent r i l j) (hl : ∀ a, a ∈ l ↔ a ∈ q ++ [y])
    (hq : (q ++ [y]).Pairwise fun a b => lastIndex r i b < lastIndex r i a) : l[j]? = some y := by
  obtain ⟨x, hx, hmin⟩ := h
  rcases List.mem_append.mp ((hl x).mp (List.mem_of_getElem? hx)) with hm | hm
  · have hlt := (List.pairwise_append.mp hq).2.2 x hm y (by simp)
    have hle := hmin y ((hl y).mpr (by simp))
    omega
  · rw [hx, List.mem_singleton.mp hm]

theorem toFinset_set_last {j : ℕ} (hl : l.Nodup) (hy : l[j]? = some y)
    (hq : l.toFinset = (q ++ [y]).toFinset) (hn : (q ++ [y]).Nodup) :
    (l.set j page).toFinset = (page :: q).toFinset := by
  obtain ⟨hj, rfl⟩ := List.getElem?_eq_some_iff.mp hy
  have hnq : l[j] ∉ q := fun hm => (List.disjoint_of_nodup_append hn) hm (by simp)
  rw [toFinset_set hl hj, hq, List.toFinset_cons, toFinset_concat, Finset.erase_insert]
  simpa using hnq

/-- Evicting a least recently used page keeps the resident pages the most recent ones. -/
theorem Refers.recency {b : Bool} (hi : i < r.length)
    (h : Refers n r[i] (LeastRecent r i l) l b l') (hn : 1 ≤ n) (hl : l.Nodup)
    (hs : l.toFinset = ((recency (r.take i)).take n).toFinset) :
    l'.toFinset = ((Paging.recency (r.take (i + 1))).take n).toFinset := by
  have hnodup : ((Paging.recency (r.take i)).take n).Nodup :=
    recency_nodup.sublist (List.take_sublist _ _)
  have hlen : l.length = ((Paging.recency (r.take i)).take n).length := by
    rw [← List.toFinset_card_of_nodup hl, hs, List.toFinset_card_of_nodup hnodup]
  have hsorted := (recency_pairwise hi.le).sublist (List.take_sublist n _)
  have hpush := push_touch (p := r[i]) (l := Paging.recency (r.take i)) hn
  rw [← recency_take_succ hi] at hpush
  generalize (Paging.recency (r.take i)).take n = q at hs hnodup hlen hsorted hpush
  generalize (Paging.recency (r.take (i + 1))).take n = q' at hpush ⊢
  have hmem : ∀ a, a ∈ l ↔ a ∈ q := fun a => by simpa using Finset.ext_iff.mp hs a
  cases hpush with
  | keep hq =>
    cases h with
    | hit => exact hs
    | load hp => exact absurd ((hmem _).mpr hq) hp
    | evict hp => exact absurd ((hmem _).mpr hq) hp
  | front hq =>
    cases h with
    | hit =>
      ext a
      rw [List.mem_toFinset, List.mem_toFinset, hmem]
      exact (mem_touch.trans ⟨fun h => h.elim (fun h => h ▸ hq) id, Or.inr⟩).symm
    | load hp => exact absurd ((hmem _).mpr hq) hp
    | evict hp => exact absurd ((hmem _).mpr hq) hp
  | load hq =>
    cases h with
    | hit hp => exact absurd ((hmem _).mp hp) hq
    | load hp hc =>
      rw [List.take_of_length_le (by rw [List.length_cons]; omega), toFinset_concat,
        List.toFinset_cons, hs]
    | @evict j hp hc hj hV =>
      obtain ⟨q, y, rfl⟩ : ∃ t y, q = t ++ [y] :=
        ⟨_, _, (List.dropLast_concat_getLast (List.ne_nil_of_length_pos (by omega))).symm⟩
      have htake : (r[i] :: (q ++ [y])).take n = r[i] :: q := by
        have hqn : n = q.length + 1 := by rw [← hc, hlen]; simp
        rw [hqn, List.take_succ_cons, List.take_left']
        rfl
      rw [htake]
      exact toFinset_set_last hl (hV.eq_last hmem hsorted) hs hnodup

end Recency

end OperatingSystem.Simulator
