import OperatingSystem.Simulator.Refinement

/-! # What LRU and FIFO evict

LRU keeps the most recently referenced pages and overwrites the one frame whose
page has the earliest last reference. FIFO lists its pages by the time they were
loaded and overwrites the page that was loaded first.
-/

namespace OperatingSystem.Simulator

open Paging

variable {n : ℕ} {r : List ℤ} {i : ℕ}

section Evict

variable {page : ℤ} {V : ℕ → Prop}

theorem Refers.evicts {l l' : List ℤ} {b : Bool} (h : Refers n page V l b l') (hp : page ∉ l)
    (hl : l.length = n) : ∃ j, j < n ∧ V j ∧ l' = l.set j page := by
  cases h with
  | hit hm => exact absurd hm hp
  | load _ hlt => omega
  | @evict j _ _ hj hV => exact ⟨j, hj, hV, rfl⟩

theorem WellFormed.pages_of_full {s : Frames} (h : WellFormed n s)
    (hfull : ∀ p ∈ s.pageFrame, 0 ≤ p) : s.pages = s.pageFrame ∧ s.pages.length = n := by
  have hpages : s.pages = s.pageFrame := List.filter_eq_self.mpr (by simpa using hfull)
  exact ⟨hpages, by rw [hpages, h.table.length_eq]⟩

/-- A fault on full frames overwrites one frame, which is a victim. -/
theorem Step.evicts {s t : Frames} (hw : WellFormed n s) (h : Step n page V s t)
    (hp : page ∉ s.pageFrame) (hfull : ∀ p ∈ s.pageFrame, 0 ≤ p) :
    ∃ j, j < n ∧ V j ∧ t.pageFrame = s.pageFrame.set j page := by
  obtain ⟨hpages, hlen⟩ := hw.pages_of_full hfull
  obtain ⟨j, hj, hV, he⟩ := h.refers.evicts (by rwa [hpages]) hlen
  refine ⟨j, hj, hV, ?_⟩
  rw [h.wellFormed.table.eq_of_full (by rw [he, List.length_set, hlen]), he, hpages]

end Evict

section Lru

/-- Reference `k` is the last one to the page among the first `i` references. -/
def LastReference (r : List ℤ) (i : ℕ) (p : ℤ) (k : ℕ) : Prop :=
  k < i ∧ r[k]? = some p ∧ ∀ k', k < k' → k' < i → r[k']? ≠ some p

theorem lastReference_lastIndex {p : ℤ} (h : p ∈ r.take i) :
    LastReference r i p (lastIndex r i p) := by
  induction i with
  | zero => simp at h
  | succ i ih =>
    have hi : r[i]? = some p ∨ r[i]? ≠ some p := em _
    rcases hi with hi | hi
    · have he : lastIndex r (i + 1) p = i := by simp [lastIndex, lastUse, hi]
      rw [he]
      exact ⟨by omega, hi, fun k hk hk' => by omega⟩
    · have he : lastIndex r (i + 1) p = lastIndex r i p := by simp [lastIndex, lastUse, hi]
      have hp : p ∈ r.take i := by
        rw [List.take_add_one, List.mem_append, Option.mem_toList] at h
        exact h.resolve_right hi
      obtain ⟨hlt, hget, hlast⟩ := ih hp
      rw [he]
      refine ⟨by omega, hget, fun k hk hk' => ?_⟩
      rcases Nat.lt_succ_iff_lt_or_eq.mp hk' with hk' | rfl
      · exact hlast k hk hk'
      · exact hi

theorem LeastRecent.lt {l : List ℤ} {j k : ℕ} {x y : ℤ} (h : LeastRecent r i l j) (hl : l.Nodup)
    (hr : ∀ p ∈ l, p ∈ r.take i) (hx : l[j]? = some x) (hy : l[k]? = some y) (hne : k ≠ j) :
    lastIndex r i x < lastIndex r i y := by
  obtain ⟨p, hp, hmin⟩ := h
  obtain rfl : x = p := Option.some.inj (hx.symm.trans hp)
  have hxy : x ≠ y := by
    rintro rfl
    obtain ⟨hk, hkx⟩ := List.getElem?_eq_some_iff.mp hy
    obtain ⟨hj, hjx⟩ := List.getElem?_eq_some_iff.mp hx
    exact hne (hl.getElem_inj_iff.mp (hkx.trans hjx.symm))
  have hmx := hr x (List.mem_of_getElem? hx)
  have hmy := hr y (List.mem_of_getElem? hy)
  refine lt_of_le_of_ne (hmin y (List.mem_of_getElem? hy)) fun he => hxy ?_
  have hgx := (lastReference_lastIndex hmx).2.1
  rw [he] at hgx
  exact Option.some.inj (hgx.symm.trans (lastReference_lastIndex hmy).2.1)

theorem recency_take_lt {p q : ℤ} (hi : i ≤ r.length) (hp : p ∈ (recency (r.take i)).take n)
    (hq : q ∈ r.take i) (hq' : q ∉ (recency (r.take i)).take n) :
    lastIndex r i q < lastIndex r i p := by
  have hs := recency_pairwise hi
  rw [← List.take_append_drop n (recency (r.take i)), List.pairwise_append] at hs
  have hm : q ∈ recency (r.take i) := mem_recency.mpr hq
  rw [← List.take_append_drop n (recency (r.take i)), List.mem_append] at hm
  exact hs.2.2 p hp q (hm.resolve_left hq')

/-- LRU evicts exactly the least recently used page. After every reference the resident pages are
the most recently referenced ones, as many as there are frames or distinct pages, and an eviction
overwrites the one frame whose page has the earliest last reference. -/
theorem lru_evicts_least_recent (hn : 1 ≤ n) (h0 : ∀ p ∈ r, 0 ≤ p) (hm : r.length ≤ 31)
    (hi : i < r.length) :
    ∃ s s', Method.lru.after n r i = some s ∧ Method.lru.after n r (i + 1) = some s' ∧
      s'.resident.card = min n (r.take (i + 1)).toFinset.card ∧
      (∀ p ∈ s'.resident, p ∈ r.take (i + 1)) ∧
      (∀ p ∈ s'.resident, ∀ q ∈ r.take (i + 1), q ∉ s'.resident →
        ∃ a b, LastReference r (i + 1) p a ∧ LastReference r (i + 1) q b ∧ b < a) ∧
      (r[i] ∉ s.pageFrame → (∀ p ∈ s.pageFrame, 0 ≤ p) →
        ∃ j x a, s.pageFrame[j]? = some x ∧ s'.pageFrame = s.pageFrame.set j r[i] ∧
          LastReference r i x a ∧ ∀ k y, k ≠ j → s.pageFrame[k]? = some y →
            ∃ b, LastReference r i y b ∧ a < b) := by
  obtain ⟨s, t, hs, ht, hr, -, hstep⟩ := Method.lru.run_step hn h0 (fun _ => hm) hi
  have hres := Method.lru.resident_eq ht
  have hrec := lru_resident hn h0 hm (i + 1) hi
  have hcard := lazy_card_eq Method.lru.resident_zero
    (Method.lru.resident_lazy hn h0 fun _ => hm) (show i + 1 ≤ r.length from hi)
  rw [hres] at hrec hcard
  have hsub : ∀ p ∈ (printRow i t).resident, p ∈ r.take (i + 1) := by
    intro p hp
    rw [hrec, List.mem_toFinset] at hp
    exact mem_recency.mp (List.mem_of_mem_take hp)
  refine ⟨s, printRow i t, hs, ht, hcard, hsub, fun p hp q hq hq' => ?_, fun hfault hfull => ?_⟩
  · refine ⟨_, _, lastReference_lastIndex (hsub p hp), lastReference_lastIndex hq, ?_⟩
    rw [hrec, List.mem_toFinset] at hp hq'
    exact recency_take_lt hi hp hq hq'
  · obtain ⟨hpages, hlen⟩ := hr.wellFormed.pages_of_full hfull
    obtain ⟨j, hj, hleast, he⟩ := hstep.evicts hr.wellFormed hfault hfull
    have hleast : LeastRecent r i s.pages j := hleast
    have hhist := hr.history
    have hnodup := hr.wellFormed.table.nodup
    rw [hpages] at hleast hhist hnodup hlen
    have hx : s.pageFrame[j]? = some (s.pageFrame[j]) := List.getElem?_eq_getElem (hlen ▸ hj)
    refine ⟨j, _, _, hx, he, lastReference_lastIndex (hhist _ (List.mem_of_getElem? hx)), ?_⟩
    intro k y hne hy
    exact ⟨_, lastReference_lastIndex (hhist _ (List.mem_of_getElem? hy)),
      hleast.lt hnodup hhist hx hy hne⟩

/-- The third reference evicts page 7, whose last reference is the first one. -/
theorem lru_evicts_least_recent_two_frames :
    ∃ s s', Method.lru.after 2 [7, 0, 1] 2 = some s ∧ Method.lru.after 2 [7, 0, 1] 3 = some s' ∧
      ∃ j x a, s.pageFrame[j]? = some x ∧ s'.pageFrame = s.pageFrame.set j 1 ∧
        LastReference [7, 0, 1] 2 x a ∧ ∀ k y, k ≠ j → s.pageFrame[k]? = some y →
          ∃ b, LastReference [7, 0, 1] 2 y b ∧ a < b := by
  obtain ⟨s, s', hs, hs', -, -, -, hevict⟩ :=
    lru_evicts_least_recent (n := 2) (r := [7, 0, 1]) (i := 2) (by decide) (by decide) (by decide)
      (by decide)
  have he : Method.lru.after 2 [7, 0, 1] 2 =
      some ⟨[7, 0], [0, 0], 2, 0, true, [⟨1, [7, -1], true⟩, ⟨2, [7, 0], true⟩]⟩ := by decide
  obtain rfl := Option.some.inj (he.symm.trans hs)
  exact ⟨_, s', hs, hs', hevict (by decide) (by decide)⟩

end Lru

section Fifo

/-- Reference `k` is the last one that loaded the page, according to the printed rows. -/
def LoadedAt (rows : List Row) (r : List ℤ) (p : ℤ) (k : ℕ) : Prop :=
  r[k]? = some p ∧ rows[k]?.map Row.fault = some true ∧
    ∀ k', k < k' → r[k']? = some p → rows[k']?.map Row.fault ≠ some true

section Rows

variable {rows : List Row} {p : ℤ} {k : ℕ} (row : Row)

theorem LoadedAt.append (h : LoadedAt rows r p k)
    (hrow : row.fault = true → r[rows.length]? ≠ some p) : LoadedAt (rows ++ [row]) r p k := by
  obtain ⟨hk, hfault, hlast⟩ := h
  have hlt : k < rows.length := by
    by_contra hge
    rw [List.getElem?_eq_none (by omega)] at hfault
    cases hfault
  refine ⟨hk, by rw [List.getElem?_append_left hlt]; exact hfault, fun k' hk' hp => ?_⟩
  rcases Nat.lt_trichotomy k' rows.length with hlt' | rfl | hgt
  · rw [List.getElem?_append_left hlt']
    exact hlast k' hk' hp
  · intro hf
    simp only [List.getElem?_concat_length, Option.map_some, Option.some.injEq] at hf
    exact hrow hf hp
  · rw [List.getElem?_eq_none (by simp; omega)]
    simp

theorem LoadedAt.of_row (hrow : row.fault = true) (hp : r[rows.length]? = some p) :
    LoadedAt (rows ++ [row]) r p rows.length := by
  refine ⟨hp, by simp [hrow], fun k' hk' _ => ?_⟩
  rw [List.getElem?_eq_none (by simp; omega)]
  simp

end Rows

/-- The circular reading lists the pages with their load times in increasing order. -/
structure Timed (r : List ℤ) (i : ℕ) (s : Frames) (times : List ℕ) : Prop where
  rows_length : s.rows.length = i
  loaded : List.Forall₂ (LoadedAt s.rows r) s.circular times
  sorted : times.Pairwise (· < ·)
  bound : ∀ t ∈ times, t < i

theorem Timed.concat {s : Frames} {times l : List ℕ} (h : Timed r i s times) (hl : l.Sublist times) :
    (l ++ [i]).Pairwise (· < ·) ∧ ∀ k ∈ l ++ [i], k < i + 1 := by
  have hlt : ∀ k ∈ l, k < i := fun k hk => h.bound k (hl.subset hk)
  constructor
  · refine List.pairwise_append.mpr ⟨h.sorted.sublist hl, List.pairwise_singleton _ _, ?_⟩
    rintro a ha b hb
    rw [List.mem_singleton.mp hb]
    exact hlt a ha
  · rintro k hk
    rcases List.mem_append.mp hk with hk | hk
    · exact Nat.lt_succ_of_lt (hlt k hk)
    · rw [List.mem_singleton.mp hk]
      exact Nat.lt_succ_self i

/-- A reference adds its own index to the load times exactly when it loads a page. -/
theorem Timed.succ {s t : Frames} {times : List ℕ} {V : ℕ → Prop} (hi : i < r.length)
    (h : Timed r i s times) (hstep : Step n r[i] V s t)
    (hc : t.circular = enqueue n r[i] s.circular) :
    ∃ times', Timed r (i + 1) (printRow i t) times' := by
  have hget : r[s.rows.length]? = some r[i] := by rw [h.rows_length, List.getElem?_eq_getElem hi]
  have hlen : (printRow i t).rows.length = i + 1 := by simp [printRow, hstep.rows, h.rows_length]
  have hrows : (printRow i t).rows = s.rows ++ [⟨i + 1, t.pageFrame, t.replace⟩] := by
    rw [printRow, hstep.rows]
  have hreplace : t.replace = true ↔ r[i] ∉ s.circular := by
    rw [(circular_perm s).mem_iff]
    exact hstep.refers.fault_iff
  have hcirc : (printRow i t).circular = enqueue n r[i] s.circular := hc
  rw [enqueue] at hcirc
  split at hcirc
  case isTrue hp =>
    have hkeep : ∀ p k, LoadedAt s.rows r p k → LoadedAt (printRow i t).rows r p k := by
      intro p k hk
      rw [hrows]
      exact hk.append _ fun hf => absurd hp (hreplace.mp hf)
    refine ⟨times, hlen, ?_, h.sorted, fun k hk => by have := h.bound k hk; omega⟩
    rw [hcirc]
    exact h.loaded.imp hkeep
  case isFalse hp =>
    have hnew : LoadedAt (printRow i t).rows r r[i] i := by
      have hload := LoadedAt.of_row ⟨i + 1, t.pageFrame, t.replace⟩ (hreplace.mpr hp) hget
      rwa [← hrows, h.rows_length] at hload
    have hkeep : List.Forall₂ (LoadedAt (printRow i t).rows r) s.circular times := by
      have hne : ∀ p ∈ s.circular, r[i] ≠ p := fun p hm he => hp (he ▸ hm)
      refine ((List.forall₂_and_left _ _).mpr ⟨hne, h.loaded⟩).imp fun p k hk => ?_
      rw [hrows]
      refine hk.2.append _ fun _ he => hk.1 ?_
      exact Option.some.inj (hget.symm.trans he)
    split at hcirc
    case isTrue =>
      obtain ⟨hsorted, hbound⟩ := h.concat (List.Sublist.refl _)
      refine ⟨times ++ [i], hlen, ?_, hsorted, hbound⟩
      rw [hcirc]
      exact List.rel_append hkeep (.cons hnew .nil)
    case isFalse =>
      obtain ⟨hsorted, hbound⟩ := h.concat (List.tail_sublist _)
      refine ⟨times.tail ++ [i], hlen, ?_, hsorted, hbound⟩
      have htail := List.forall₂_drop 1 hkeep
      rw [List.drop_one, List.drop_one] at htail
      rw [hcirc]
      exact List.rel_append htail (.cons hnew .nil)

theorem fifo_timed (hn : 1 ≤ n) (h0 : ∀ p ∈ r, 0 ≤ p) :
    ∀ i, i ≤ r.length → ∃ s times, Method.fifo.after n r i = some s ∧ Reached n r i s ∧
      s.circular = fifoQueue n r i ∧ Timed r i s times := by
  intro i
  induction i with
  | zero =>
    intro _
    obtain ⟨s, hs, hr, hc⟩ := fifo_circular hn h0 0 (by omega)
    obtain rfl : initial n = s := Option.some.inj hs
    refine ⟨_, [], rfl, hr, hc, rfl, ?_, .nil, by simp⟩
    rw [hc]
    exact .nil
  | succ i ih =>
    intro hi
    obtain ⟨s, times, hs, hr, hc, ht⟩ := ih (by omega)
    obtain ⟨t, hstep, hs', hc'⟩ := fifoReference_step hr.wellFormed (h0 _ (List.getElem_mem hi))
    obtain ⟨times', ht'⟩ := ht.succ hi hs' hc'
    refine ⟨_, times', Method.fifo.after_succ hi hs hstep, hr.succ hi hs', ?_, ht'⟩
    rw [fifoQueue_succ hi, ← hc]
    exact hc'

theorem exists_of_forall₂ {α β : Type*} {R : α → β → Prop} {l : List α} {m : List β}
    (h : List.Forall₂ R l m) {a : α} (ha : a ∈ l) : ∃ b ∈ m, R a b := by
  induction h with
  | nil => simp at ha
  | cons hr _ ih =>
    rcases List.mem_cons.mp ha with rfl | ha
    · exact ⟨_, List.mem_cons_self, hr⟩
    · obtain ⟨b, hb, hr⟩ := ih ha
      exact ⟨b, List.mem_cons_of_mem _ hb, hr⟩

/-- FIFO is a first-in-first-out queue. After every reference the occupied frames read circularly
from the pointer are the bounded queue, in the order of their load times; both fault at the same
references; and an eviction overwrites the frame at the pointer, whose page was loaded earliest. -/
theorem fifo_refines_queue (hn : 1 ≤ n) (h0 : ∀ p ∈ r, 0 ≤ p) (hi : i < r.length) :
    ∃ s s' times, Method.fifo.after n r i = some s ∧ Method.fifo.after n r (i + 1) = some s' ∧
      s'.circular = fifoQueue n r (i + 1) ∧
      List.Forall₂ (LoadedAt s'.rows r) s'.circular times ∧ times.Pairwise (· < ·) ∧
      (s'.replace = true ↔ r[i] ∉ fifoQueue n r i) ∧
      s'.rows = s.rows ++ [⟨i + 1, s'.pageFrame, s'.replace⟩] ∧
      (r[i] ∉ s.pageFrame → (∀ p ∈ s.pageFrame, 0 ≤ p) →
        s'.pageFrame = s.pageFrame.set s.victim r[i] ∧
        ∃ x a, s.pageFrame[s.victim]? = some x ∧ LoadedAt s.rows r x a ∧
          ∀ y ∈ s.pageFrame, y ≠ x → ∃ b, LoadedAt s.rows r y b ∧ a < b) := by
  obtain ⟨s, times, hs, hr, hc, ht⟩ := fifo_timed hn h0 i hi.le
  obtain ⟨t, href, hstep, hc'⟩ := fifoReference_step hr.wellFormed (h0 _ (List.getElem_mem hi))
  obtain ⟨times', ht'⟩ := ht.succ hi hstep hc'
  refine ⟨s, printRow i t, times', hs, Method.fifo.after_succ hi hs href, ?_, ht'.loaded, ht'.sorted,
    ?_, by simp [printRow, hstep.rows], fun hfault hfull => ?_⟩
  · rw [fifoQueue_succ hi, ← hc]
    exact hc'
  · rw [← hc, (circular_perm s).mem_iff]
    exact hstep.refers.fault_iff
  · obtain ⟨hpages, hlen⟩ := hr.wellFormed.pages_of_full hfull
    obtain ⟨j, -, rfl, he⟩ := hstep.evicts hr.wellFormed hfault hfull
    refine ⟨he, ?_⟩
    -- The head of the circular reading is the page at the pointer.
    obtain ⟨l, x, m, hf, hl⟩ := split_at (l := s.pages) (hlen ▸ hr.wellFormed.victim_lt)
    have hcirc : s.circular = x :: (m ++ l) := by
      rw [hr.wellFormed.circular_eq_rotate hlen, hf, ← hl, rotate_middle]
      rfl
    have hloaded := ht.loaded
    have hsorted := ht.sorted
    rw [hcirc] at hloaded
    cases hloaded with
    | @cons _ a _ times hx hrest =>
      refine ⟨x, a, ?_, hx, fun y hy hne => ?_⟩
      · rw [← hpages, hf, ← hl]
        simp
      · have hy : y ∈ m ++ l := by
          rw [← hpages, ← (circular_perm s).mem_iff, hcirc] at hy
          exact List.mem_of_ne_of_mem hne hy
        obtain ⟨b, hb, hyb⟩ := exists_of_forall₂ hrest hy
        exact ⟨b, hyb, (List.pairwise_cons.mp hsorted).1 b hb⟩

/-- Page 7, loaded first, makes room for page 1. -/
theorem fifo_refines_queue_two_frames :
    ∃ s s', Method.fifo.after 2 [7, 0, 7, 1] 3 = some s ∧
      Method.fifo.after 2 [7, 0, 7, 1] 4 = some s' ∧
      s'.circular = fifoQueue 2 [7, 0, 7, 1] 4 ∧ s'.pageFrame = s.pageFrame.set s.victim 1 := by
  obtain ⟨s, s', times, hs, hs', hq, -, -, -, -, hevict⟩ :=
    fifo_refines_queue (n := 2) (r := [7, 0, 7, 1]) (i := 3) (by decide) (by decide) (by decide)
  have he : Method.fifo.after 2 [7, 0, 7, 1] 3 = some ⟨[7, 0], [0, 0], 2, 0, false,
      [⟨1, [7, -1], true⟩, ⟨2, [7, 0], true⟩, ⟨3, [7, 0], false⟩]⟩ := by decide
  obtain rfl := Option.some.inj (he.symm.trans hs)
  exact ⟨_, s', hs, hs', hq, (hevict (by decide) (by decide)).1⟩

end Fifo

end OperatingSystem.Simulator
