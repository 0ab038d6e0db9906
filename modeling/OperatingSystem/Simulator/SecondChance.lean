import OperatingSystem.Paging.SecondChance
import OperatingSystem.Simulator.Circular

/-! # The Second-Chance branch

The frames and bits read circularly from the pointer are the textbook queue. A
fault on full frames meets a clear bit in the first scan, in the second one, or
not at all; each case drops the page that the queue would evict.
-/

namespace OperatingSystem.Simulator

open Paging

/-- The occupied frames with their bits, read circularly from the pointer. -/
def Frames.cells (s : Frames) : List (ℤ × ℤ) :=
  ((s.pageFrame.zip s.referenceBit).rotate s.victim).filter fun c => 0 ≤ c.1

/-- A frame and its bit, as an entry of the textbook queue. -/
def entry (c : ℤ × ℤ) : ℤ × Bool := (c.1, decide (c.2 = 1))

/-- The queue that the frames and bits represent. -/
def Frames.queue (s : Frames) : List (ℤ × Bool) := s.cells.map entry

section Sweep

variable {a c : List ℤ} {m k : ℕ}

theorem sweep_one (h : 0 < k) :
    sweep (a ++ 1 :: c) a.length k = sweep (a ++ 0 :: c) (a.length + 1) (k - 1) := by
  obtain ⟨k, rfl⟩ : ∃ j, k = j + 1 := ⟨k - 1, by omega⟩
  simp [sweep, store_eq]

theorem sweep_found (h : m < k) :
    sweep (a ++ (List.replicate m 1 ++ 0 :: c)) a.length k =
      some (a ++ (List.replicate m 0 ++ 0 :: c), some (a.length + m)) := by
  induction m generalizing a k with
  | zero =>
    obtain ⟨k, rfl⟩ : ∃ j, k = j + 1 := ⟨k - 1, by omega⟩
    simp [sweep]
  | succ m ih =>
    have ih := ih (a := a ++ [0]) (k := k - 1) (by omega)
    rw [List.replicate_succ, List.cons_append, sweep_one (by omega)]
    simp only [List.length_append, List.length_singleton, List.append_assoc,
      List.singleton_append] at ih
    rw [ih, List.replicate_succ, List.cons_append, Nat.add_right_comm, Nat.add_assoc]

theorem sweep_none :
    sweep (a ++ (List.replicate m 1 ++ c)) a.length m =
      some (a ++ (List.replicate m 0 ++ c), none) := by
  induction m generalizing a with
  | zero => simp [sweep]
  | succ m ih =>
    have ih := ih (a := a ++ [0])
    rw [List.replicate_succ, List.cons_append, sweep_one (by omega), Nat.add_sub_cancel]
    simp only [List.length_append, List.length_singleton, List.append_assoc,
      List.singleton_append] at ih
    rw [ih, List.replicate_succ, List.cons_append]

theorem bits_cases {b : List ℤ} (hb : ∀ x ∈ b, x = 0 ∨ x = 1) :
    b = List.replicate b.length 1 ∨ ∃ m c, b = List.replicate m 1 ++ 0 :: c := by
  induction b with
  | nil => exact Or.inl rfl
  | cons x b ih =>
    rcases hb x List.mem_cons_self with rfl | rfl
    · exact Or.inr ⟨0, b, rfl⟩
    · rcases ih fun y hy => hb y (List.mem_cons_of_mem _ hy) with h | ⟨m, c, rfl⟩
      · refine Or.inl ?_
        rw [List.length_cons, List.replicate_succ, ← h]
      · exact Or.inr ⟨m + 1, c, rfl⟩

end Sweep

section Entries

variable {a : List ℤ} {m : ℕ}

theorem map_entry_zip (bit : ℤ) (h : a.length = m) :
    (a.zip (List.replicate m bit)).map entry = a.map fun p => (p, decide (bit = 1)) := by
  subst h
  induction a with
  | nil => rfl
  | cons p a ih => simpa [List.replicate_succ, entry] using ih

theorem map_entry_zip_one (h : a.length = m) :
    (a.zip (List.replicate m 1)).map entry = a.map fun p => (p, true) := map_entry_zip 1 h

theorem map_entry_zip_zero (h : a.length = m) :
    (a.zip (List.replicate m 0)).map entry = a.map fun p => (p, false) := map_entry_zip 0 h

theorem map_clear_map (b : Bool) :
    (a.map fun p => (p, b)).map clear = a.map fun p => (p, false) := by
  simp [clear]

end Entries

variable {n : ℕ} {page : ℤ} {s : Frames}

theorem wrap_queue (h : s.referenceBit.length = s.pageFrame.length) : (wrap s).queue = s.queue := by
  unfold wrap
  split
  case isTrue hv =>
    have hl : (s.pageFrame.zip s.referenceBit).length = s.victim := by simp [h, hv]
    simp only [Frames.queue, Frames.cells, List.rotate_zero]
    rw [← hl, List.rotate_length]
  case isFalse => rfl

theorem queue_of_full {s : Frames} (h : ∀ p ∈ s.pageFrame, 0 ≤ p) :
    s.queue = ((s.pageFrame.zip s.referenceBit).rotate s.victim).map entry := by
  rw [Frames.queue, Frames.cells, List.filter_eq_self.mpr]
  intro c hc
  simpa using h c.1 (List.of_mem_zip (List.mem_rotate.mp hc)).1

theorem zip_rotate {p₁ p₂ b₁ b₂ : List ℤ} {v : ℕ} (hp : p₁.length = v) (hb : b₁.length = v) :
    ((p₁ ++ p₂).zip (b₁ ++ b₂)).rotate v = p₂.zip b₂ ++ p₁.zip b₁ := by
  rw [List.zip_append (by omega)]
  have hl : (p₁.zip b₁).length = v := by simp [hp, hb]
  rw [← hl, List.rotate_append_length_eq]

theorem chanceEvict_eq {bits : List ℤ} {j : ℕ} (hj : j < s.pageFrame.length) :
    chanceEvict page { s with referenceBit := bits } j =
      some { placed page s j with referenceBit := bits, victim := j + 1 } := by
  simp [chanceEvict, place, placed, store_eq hj]

/-- What the victim search has to return to evict as the queue does. -/
structure Evicts (n : ℕ) (page : ℤ) (s : Frames) (j : ℕ) (bits : List ℤ) : Prop where
  lt : j < n
  bits_length : bits.length = n
  bits_mem : ∀ b ∈ bits, b = 0 ∨ b = 1
  eq_some : secondChanceEvict page s =
    some { placed page s j with referenceBit := bits, victim := j + 1 }
  queue_eq : ({ placed page s j with referenceBit := bits, victim := j + 1 } : Frames).queue =
    chance s.queue ++ [(page, false)]

section Evict

variable {p₁ p₂ b₁ b₂ : List ℤ} {x : ℤ}

theorem queue_placed {u w a b : List ℤ} {j : ℕ} (h0 : ∀ p ∈ s.pageFrame, 0 ≤ p) (hpage : 0 ≤ page)
    (hf : s.pageFrame = u ++ x :: w) (hp : u.length = j) (hb : a.length = j) :
    ({ placed page s j with referenceBit := a ++ 0 :: b, victim := j + 1 } : Frames).queue =
      (w.zip b).map entry ++ ((u.zip a).map entry ++ [(page, false)]) := by
  have hset : s.pageFrame.set j page = (u ++ [page]) ++ w := by rw [hf, ← hp]; simp
  have hnn : ∀ p ∈ s.pageFrame.set j page, 0 ≤ p := by
    intro p hm
    rcases List.mem_or_eq_of_mem_set hm with hm | rfl
    · exact h0 p hm
    · exact hpage
  rw [queue_of_full hnn]
  have hbits : a ++ 0 :: b = (a ++ [0]) ++ b := by simp
  simp only [placed, hset, hbits]
  rw [zip_rotate (by simp [hp]) (by simp [hb]), List.zip_append (by omega)]
  simp [entry]

theorem queue_split (h0 : ∀ p ∈ s.pageFrame, 0 ≤ p) (hf : s.pageFrame = p₁ ++ p₂)
    (hb : s.referenceBit = b₁ ++ b₂) (hp : p₁.length = s.victim) (hv : b₁.length = s.victim) :
    s.queue = (p₂.zip b₂).map entry ++ (p₁.zip b₁).map entry := by
  rw [queue_of_full h0, hf, hb, zip_rotate hp hv, List.map_append]

theorem evicts_first {m : ℕ} {c : List ℤ} (hlen : s.pageFrame.length = n)
    (hbit : ∀ b ∈ s.referenceBit, b = 0 ∨ b = 1) (h0 : ∀ p ∈ s.pageFrame, 0 ≤ p) (hpage : 0 ≤ page)
    (hf : s.pageFrame = p₁ ++ p₂) (hb : s.referenceBit = b₁ ++ (List.replicate m 1 ++ 0 :: c))
    (hp : p₁.length = s.victim) (hv : b₁.length = s.victim) (hc : p₂.length = m + (c.length + 1)) :
    Evicts n page s (s.victim + m) (b₁ ++ (List.replicate m 0 ++ 0 :: c)) := by
  obtain ⟨a, x, d, rfl, ha⟩ := split_at (l := p₂) (show m < p₂.length by omega)
  have hd : d.length = c.length := by simp at hc; omega
  have hn : s.victim + m < s.pageFrame.length := by rw [hf]; simp; omega
  have hsweep := sweep_found (a := b₁) (c := c) (m := m)
    (k := s.pageFrame.length - s.victim) (by omega)
  rw [← hb, hv] at hsweep
  refine ⟨by omega, ?_, ?_, ?_, ?_⟩
  · rw [← hlen, hf]; simp; omega
  · intro b hm
    simp only [List.mem_append, List.mem_cons] at hm
    rcases hm with hm | hm | rfl | hm
    · exact hbit b (by rw [hb]; simp [hm])
    · exact Or.inl (List.eq_of_mem_replicate hm)
    · exact Or.inl rfl
    · exact hbit b (by rw [hb]; simp [hm])
  · rw [secondChanceEvict, hsweep]
    exact chanceEvict_eq (by omega)
  · have hset : ∀ c ∈ a.map (fun p => (p, true)), c.2 = true := by simp
    have hq := queue_split h0 hf hb hp hv
    rw [List.zip_append (by simpa using ha), List.map_append, map_entry_zip_one ha, List.zip_cons_cons,
      List.map_cons, List.append_assoc, List.cons_append] at hq
    rw [hq, show entry (x, 0) = (x, false) by rfl, chance_append hset, map_clear_map,
      ← List.append_assoc b₁, queue_placed h0 hpage (u := p₁ ++ a) (w := d) (x := x) (by simp [hf])
      (by simp [hp, ha]) (by simp [hv]), List.zip_append (by omega), List.map_append,
      map_entry_zip_zero ha]
    simp

theorem evicts_second {m : ℕ} {c : List ℤ} (hlen : s.pageFrame.length = n)
    (hbit : ∀ b ∈ s.referenceBit, b = 0 ∨ b = 1) (h0 : ∀ p ∈ s.pageFrame, 0 ≤ p) (hpage : 0 ≤ page)
    (hf : s.pageFrame = p₁ ++ p₂)
    (hb : s.referenceBit = (List.replicate m 1 ++ 0 :: c) ++ List.replicate p₂.length 1)
    (hp : p₁.length = s.victim) (hc : p₁.length = m + (c.length + 1)) :
    Evicts n page s m (List.replicate m 0 ++ 0 :: (c ++ List.replicate p₂.length 0)) := by
  obtain ⟨a, x, d, rfl, ha⟩ := split_at (l := p₁) (show m < p₁.length by omega)
  have hd : d.length = c.length := by simp at hc; omega
  have hv : (List.replicate m (1 : ℤ) ++ 0 :: c).length = s.victim := by simp; omega
  have hfuel : s.pageFrame.length - s.victim = p₂.length := by rw [hf, ← hp]; simp; omega
  have hfirst := sweep_none (a := List.replicate m 1 ++ 0 :: c) (m := p₂.length) (c := [])
  have hsecond := sweep_found (a := []) (m := m) (c := c ++ List.replicate p₂.length 0)
    (k := s.victim) (by omega)
  simp only [List.append_nil, List.nil_append, List.length_nil, Nat.zero_add] at hfirst hsecond
  rw [← hb, hv, List.append_assoc, List.cons_append] at hfirst
  refine ⟨?_, ?_, ?_, ?_, ?_⟩
  · rw [← hlen, hf]; simp; omega
  · rw [← hlen, hf]; simp; omega
  · intro b hm
    simp only [List.mem_append, List.mem_cons] at hm
    rcases hm with hm | rfl | hm | hm
    · exact Or.inl (List.eq_of_mem_replicate hm)
    · exact Or.inl rfl
    · exact hbit b (by rw [hb]; simp [hm])
    · exact Or.inl (List.eq_of_mem_replicate hm)
  · rw [secondChanceEvict, hfuel, hfirst]
    simp only [Option.bind_eq_bind, Option.bind_some, hsecond]
    exact chanceEvict_eq (by rw [hf]; simp; omega)
  · have hset : ∀ c ∈ (p₂ ++ a).map (fun p => (p, true)), c.2 = true := by simp
    have hq := queue_split h0 hf hb hp hv
    rw [map_entry_zip_one rfl, List.zip_append (by simpa using ha), List.map_append,
      map_entry_zip_one ha, List.zip_cons_cons, List.map_cons, ← List.append_assoc,
      ← List.map_append] at hq
    rw [hq, show entry (x, 0) = (x, false) by rfl, chance_append hset, map_clear_map,
      queue_placed h0 hpage (u := a) (w := d ++ p₂) (x := x) (by simp [hf]) ha (by simp),
      List.zip_append hd, List.map_append, map_entry_zip_zero ha, map_entry_zip_zero rfl]
    simp

theorem evicts_third (hlen : s.pageFrame.length = n) (h0 : ∀ p ∈ s.pageFrame, 0 ≤ p)
    (hpage : 0 ≤ page) (hf : s.pageFrame = p₁ ++ x :: p₂)
    (hb : s.referenceBit = List.replicate p₁.length 1 ++ List.replicate (p₂.length + 1) 1)
    (hp : p₁.length = s.victim) :
    Evicts n page s s.victim
      (List.replicate p₁.length 0 ++ 0 :: List.replicate p₂.length 0) := by
  have hfuel : s.pageFrame.length - s.victim = p₂.length + 1 := by rw [hf, ← hp]; simp
  have hfirst := sweep_none (a := List.replicate p₁.length 1) (m := p₂.length + 1) (c := [])
  have hsecond := sweep_none (a := []) (m := p₁.length)
    (c := List.replicate (p₂.length + 1) 0)
  simp only [List.append_nil, List.nil_append, List.length_nil, List.length_replicate]
    at hfirst hsecond
  rw [← hb] at hfirst
  refine ⟨?_, ?_, ?_, ?_, ?_⟩
  · rw [← hlen, hf, ← hp]; simp
  · rw [← hlen, hf]; simp
  · intro b hm
    simp only [List.mem_append, List.mem_cons] at hm
    rcases hm with hm | rfl | hm
    · exact Or.inl (List.eq_of_mem_replicate hm)
    · exact Or.inl rfl
    · exact Or.inl (List.eq_of_mem_replicate hm)
  · rw [hp] at hfirst hsecond
    rw [secondChanceEvict, hfuel, hfirst]
    simp only [Option.bind_eq_bind, Option.bind_some, hsecond, hp]
    exact chanceEvict_eq (by rw [hf, ← hp]; simp)
  · have hset : ∀ c ∈ (p₂ ++ p₁).map (fun p => (p, true)), c.2 = true := by simp
    have hq := queue_split h0 hf hb hp (by simpa using hp)
    rw [map_entry_zip_one (by simp), map_entry_zip_one rfl, List.map_cons, List.cons_append,
      ← List.map_append] at hq
    rw [hq, chance_cons hset, map_clear_map, queue_placed h0 hpage hf hp (by simpa using hp),
      map_entry_zip_zero rfl, map_entry_zip_zero rfl]
    simp

end Evict

/-- The victim search ends inside the frames and evicts the page that the queue would evict. -/
theorem secondChanceEvict_eq (h : WellFormed n s) (hl : s.pages.length = n) (hpage : 0 ≤ page) :
    ∃ j bits, Evicts n page s j bits := by
  have hlen := h.table.length_eq
  have hvict := h.victim_lt
  have hblen := h.bits_length
  have h0 : ∀ p ∈ s.pageFrame, 0 ≤ p := by rw [h.table.eq_of_full hl]; exact h.table.nonneg
  have hf : s.pageFrame = s.pageFrame.take s.victim ++ s.pageFrame.drop s.victim := by simp
  have hb : s.referenceBit = s.referenceBit.take s.victim ++ s.referenceBit.drop s.victim := by simp
  have hp₁ : (s.pageFrame.take s.victim).length = s.victim := by simp; omega
  have hb₁ : (s.referenceBit.take s.victim).length = s.victim := by simp; omega
  have hp₂ : (s.pageFrame.drop s.victim).length = (s.referenceBit.drop s.victim).length := by
    simp; omega
  rcases bits_cases fun x hx => h.bits x (List.mem_of_mem_drop hx) with hset | ⟨m, c, hclear⟩
  · rcases bits_cases fun x hx => h.bits x (List.mem_of_mem_take hx) with hset' | ⟨m, c, hclear⟩
    · obtain ⟨x, d, hd⟩ : ∃ x d, s.pageFrame.drop s.victim = x :: d :=
        List.exists_cons_of_ne_nil (List.ne_nil_of_length_pos (by simp; omega))
      rw [hset, hset', hb₁, ← hp₂, hd, List.length_cons] at hb
      rw [hd] at hf
      exact ⟨_, _, evicts_third hlen h0 hpage hf (by rw [hp₁]; exact hb) hp₁⟩
    · rw [hset, hclear, ← hp₂] at hb
      refine ⟨_, _, evicts_second hlen h.bits h0 hpage hf hb hp₁ ?_⟩
      rw [hp₁, ← hb₁, hclear]
      simp
  · rw [hclear] at hb
    refine ⟨_, _, evicts_first hlen h.bits h0 hpage hf hb hp₁ hb₁ ?_⟩
    rw [hp₂, hclear]
    simp

theorem queue_fst (h : s.referenceBit.length = s.pageFrame.length) :
    s.queue.map Prod.fst = s.circular := by
  have hmap : ∀ l : List (ℤ × ℤ), (l.filter fun c => 0 ≤ c.1).map Prod.fst =
      (l.map Prod.fst).filter fun p => 0 ≤ p := fun l => by rw [List.filter_map]; rfl
  rw [Frames.queue, Frames.cells, List.map_map, Frames.circular]
  exact (hmap _).trans (by rw [List.map_rotate, List.map_fst_zip (by omega)])

theorem Table.getElem_eq {f l : List ℤ} (h : Table n f l) (hp : 0 ≤ page) {j k : ℕ}
    (hj : f[j]? = some page) (hk : f[k]? = some page) : j = k := by
  have hlt : ∀ {k : ℕ}, f[k]? = some page → l[k]? = some page := by
    intro k hk
    rw [h.eq_append, List.getElem?_append] at hk
    split at hk
    case isTrue => exact hk
    case isFalse =>
      have := List.eq_of_mem_replicate (List.mem_of_getElem? hk)
      omega
  obtain ⟨hj', hje⟩ := List.getElem?_eq_some_iff.mp (hlt hj)
  obtain ⟨hk', hke⟩ := List.getElem?_eq_some_iff.mp (hlt hk)
  exact (h.nodup.getElem_inj_iff).mp (hje.trans hke.symm)

theorem queue_hit {j : ℕ} (h : WellFormed n s) (hp : 0 ≤ page) (hj : s.pageFrame[j]? = some page) :
    ({ s with referenceBit := s.referenceBit.set j 1, replace := false } : Frames).queue =
      s.queue.map fun c => if c.1 = page then (c.1, true) else c := by
  have hzip : s.pageFrame.zip (s.referenceBit.set j 1) =
      (s.pageFrame.zip s.referenceBit).map fun c => if c.1 = page then (c.1, 1) else c := by
    apply List.ext_getElem
    · simp
    · intro k hk hk'
      simp only [List.length_zip, List.length_map, List.length_set, lt_inf_iff] at hk hk'
      simp only [List.getElem_zip, List.getElem_map, List.getElem_set]
      split
      case isTrue he =>
        subst he
        rw [List.getElem?_eq_getElem hk.1] at hj
        rw [if_pos (Option.some.inj hj)]
      case isFalse hne =>
        rw [if_neg]
        intro he
        exact hne (h.table.getElem_eq hp hj (by rw [List.getElem?_eq_getElem hk.1, he]))
  simp only [Frames.queue, Frames.cells, hzip]
  rw [← List.map_rotate, List.filter_map, List.map_map, List.map_map]
  have hfst : (fun c : ℤ × ℤ => decide (0 ≤ c.1)) ∘ (fun c => if c.1 = page then (c.1, 1) else c) =
      fun c => decide (0 ≤ c.1) := by
    funext c
    simp only [Function.comp]
    split <;> rfl
  rw [hfst]
  apply List.map_congr_left
  intro c _
  by_cases hc : c.1 = page <;> simp [entry, hc]

theorem queue_load (h : WellFormed n s) (h0 : 0 ≤ page) (hl : s.pages.length < n) :
    ({ placed page s s.pages.length with
        referenceBit := s.referenceBit.set s.pages.length 0 } : Frames).queue =
      s.queue ++ [(page, false)] := by
  obtain ⟨m, hm⟩ : ∃ m, n - s.pages.length = m + 1 := ⟨n - s.pages.length - 1, by omega⟩
  obtain ⟨a, x, b, hb, ha⟩ := split_at (l := s.referenceBit) (h.bits_length ▸ hl)
  have hfree : ∀ b : List ℤ, ((List.replicate m (-1 : ℤ)).zip b).filter (fun c => 0 ≤ c.1) = [] := by
    intro b
    refine List.filter_eq_nil_iff.mpr fun c hc => ?_
    rw [List.eq_of_mem_replicate (List.of_mem_zip hc).1]
    decide
  have hf : s.pageFrame = s.pages ++ -1 :: List.replicate m (-1) := by
    rw [← List.replicate_succ, ← hm]; exact h.table.eq_append
  have hset : s.pageFrame.set s.pages.length page = s.pages ++ page :: List.replicate m (-1) := by
    rw [hf]; simp
  have hbits : s.referenceBit.set s.pages.length 0 = a ++ 0 :: b := by rw [hb, ← ha]; simp
  simp only [Frames.queue, Frames.cells, placed, h.victim_zero hl, List.rotate_zero]
  rw [hset, hbits, hb, hf, List.zip_append ha.symm, List.zip_append ha.symm]
  simp [hfree, h0, entry]

theorem secondChanceReference_hit {j : ℕ} (hj : lookup page s.pageFrame 0 = .hit j)
    (hb : j < s.referenceBit.length) : secondChanceReference page s =
      some (wrap { s with referenceBit := s.referenceBit.set j 1, replace := false }) := by
  simp [secondChanceReference, hj, store_eq hb]

theorem secondChanceReference_free {j : ℕ} (hj : lookup page s.pageFrame 0 = .free j)
    (hf : j < s.pageFrame.length) (hb : j < s.referenceBit.length) : secondChanceReference page s =
      some (wrap { placed page s j with referenceBit := s.referenceBit.set j 0 }) := by
  simp [secondChanceReference, hj, place_eq hf, placed, store_eq hb]

/-- One iteration of the Second-Chance branch is one step of the second-chance queue. -/
theorem secondChanceReference_step (h : WellFormed n s) (h0 : 0 ≤ page) :
    ∃ s', secondChanceReference page s = some s' ∧ Step n page (fun _ => True) s s' ∧
      s'.queue = secondChance n page s.queue := by
  have hlen := h.table.length_eq
  have hvict : s.victim < s.pageFrame.length := hlen ▸ h.victim_lt
  have hfst := queue_fst (h.bits_length.trans hlen.symm)
  have hmem : page ∈ s.queue.map Prod.fst ↔ page ∈ s.pages := by
    rw [hfst]; exact (circular_perm s).mem_iff
  have hqlen : s.queue.length = s.pages.length := by
    rw [← List.length_map Prod.fst, hfst]; exact (circular_perm s).length_eq
  have hbit : ∀ {j : ℕ} {v : ℤ}, v = 0 ∨ v = 1 → ∀ b ∈ s.referenceBit.set j v, b = 0 ∨ b = 1 := by
    intro j v hv b hb
    rcases List.mem_or_eq_of_mem_set hb with hb | rfl
    · exact h.bits b hb
    · exact hv
  by_cases hp : page ∈ s.pages
  · obtain ⟨j, hj, hpj⟩ := h.table.lookup_hit hp
    have hjl : j < s.pages.length := (List.getElem?_eq_some_iff.mp hpj).1
    have hjf : s.pageFrame[j]? = some page := by
      rw [h.table.eq_append, List.getElem?_append_left hjl]; exact hpj
    have hjb : j < s.referenceBit.length := by
      rw [h.bits_length]; exact hjl.trans_le h.table.length_le
    refine ⟨{ s with referenceBit := s.referenceBit.set j 1, replace := false }, ?_, ?_, ?_⟩
    · rw [secondChanceReference_hit hj hjb]
      exact congrArg some (wrap_eq_self hvict)
    · exact (Step.of_hit h hp).update (by simp [h.bits_length]) (hbit (Or.inr rfl)) h.victim_lt
        h.victim_zero
    · rw [secondChance, if_pos (hmem.mpr hp)]
      exact queue_hit h h0 hjf
  rcases h.table.length_le.lt_or_eq with hl | hl
  · refine ⟨{ placed page s s.pages.length with
      referenceBit := s.referenceBit.set s.pages.length 0 }, ?_, ?_, ?_⟩
    · rw [secondChanceReference_free (h.table.lookup_free hp h0 hl) (hlen ▸ hl)
        (h.bits_length ▸ hl)]
      exact congrArg some (wrap_eq_self (by simpa [placed] using hvict))
    · exact (Step.of_load h h0 hp hl).update (by simp [h.bits_length]) (hbit (Or.inl rfl))
        h.victim_lt fun _ => h.victim_zero hl
    · rw [secondChance, if_neg (mt hmem.mp hp), if_pos (by omega)]
      exact queue_load h h0 hl
  · obtain ⟨j, bits, he⟩ := secondChanceEvict_eq h hl h0
    refine ⟨wrap { placed page s j with referenceBit := bits, victim := j + 1 }, ?_,
      .advance h h0 hp hl he.lt trivial he.bits_length he.bits_mem, ?_⟩
    · rw [secondChanceReference, h.table.lookup_absent hp hl]
      simp only [he.eq_some, Option.map_some]
    · rw [secondChance, if_neg (mt hmem.mp hp), if_neg (by omega), wrap_queue, he.queue_eq]
      simp [placed, he.bits_length, hlen]

end OperatingSystem.Simulator
