import OperatingSystem.Paging.Schedule
import OperatingSystem.Simulator.Basic

/-! # The frame table

The occupied frames are a prefix of `page_frame` with pairwise distinct pages.
On such a table the lookup loop recognises exactly the resident pages, and a
reference leaves the table alone, extends the prefix or overwrites one frame.
-/

namespace OperatingSystem.Simulator

open Paging

def Frames.pages (s : Frames) : List ℤ := s.pageFrame.filter fun p => 0 ≤ p

/-- The set of resident pages. -/
def Frames.resident (s : Frames) : Finset ℤ := s.pages.toFinset

/-- Distinct pages in the first frames, free frames behind them. -/
structure Table (n : ℕ) (pageFrame pages : List ℤ) : Prop where
  eq_append : pageFrame = pages ++ List.replicate (n - pages.length) (-1)
  length_le : pages.length ≤ n
  nodup : pages.Nodup
  nonneg : ∀ p ∈ pages, 0 ≤ p

namespace Table

variable {n : ℕ} {f l : List ℤ} {page : ℤ}

theorem length_eq (h : Table n f l) : f.length = n := by
  have := h.length_le
  simp [h.eq_append]
  omega

theorem filter_eq (h : Table n f l) : f.filter (fun p => 0 ≤ p) = l := by
  rw [h.eq_append, List.filter_append, List.filter_eq_self.mpr (by simpa using h.nonneg),
    List.filter_eq_nil_iff.mpr (by simp +contextual), List.append_nil]

theorem eq_of_full (h : Table n f l) (hl : l.length = n) : f = l := by
  simpa [hl] using h.eq_append

theorem lookup_append {j : ℕ} {rest : List ℤ} (hl : page ∉ l) (h0 : ∀ p ∈ l, 0 ≤ p) :
    lookup page (l ++ rest) j = lookup page rest (j + l.length) := by
  induction l generalizing j with
  | nil => rfl
  | cons a l ih =>
    have ha : a ≠ page := fun h => hl (h ▸ List.mem_cons_self)
    have hn : ¬ a < 0 := not_lt.mpr (h0 a List.mem_cons_self)
    rw [List.cons_append, lookup, if_neg ha, if_neg hn,
      ih (fun h => hl (List.mem_cons_of_mem _ h)) (fun p hp => h0 p (List.mem_cons_of_mem _ hp)),
      List.length_cons, Nat.add_right_comm, Nat.add_assoc]

theorem lookup_hit (h : Table n f l) (hp : page ∈ l) :
    ∃ j, lookup page f 0 = .hit j ∧ l[j]? = some page := by
  obtain ⟨a, b, rfl, ha⟩ := List.eq_append_cons_of_mem hp
  refine ⟨a.length, ?_, by simp⟩
  rw [h.eq_append, List.append_assoc, lookup_append ha
    (fun p hp => h.nonneg p (List.mem_append_left _ hp))]
  simp [lookup]

theorem lookup_free (h : Table n f l) (hp : page ∉ l) (h0 : 0 ≤ page) (hl : l.length < n) :
    lookup page f 0 = .free l.length := by
  obtain ⟨m, hm⟩ : ∃ m, n - l.length = m + 1 := ⟨n - l.length - 1, by omega⟩
  have hne : (-1 : ℤ) ≠ page := by omega
  rw [h.eq_append, lookup_append hp h.nonneg, hm, List.replicate_succ, lookup, if_neg hne,
    if_pos (by omega), Nat.zero_add]

theorem lookup_absent (h : Table n f l) (hp : page ∉ l) (hl : l.length = n) :
    lookup page f 0 = .absent := by
  rw [h.eq_append, lookup_append hp h.nonneg, hl, Nat.sub_self, List.replicate_zero, lookup]

theorem load (h : Table n f l) (hp : page ∉ l) (h0 : 0 ≤ page) (hl : l.length < n) :
    Table n (f.set l.length page) (l ++ [page]) := by
  obtain ⟨m, hm⟩ : ∃ m, n - l.length = m + 1 := ⟨n - l.length - 1, by omega⟩
  have hm' : n - (l.length + 1) = m := by omega
  constructor
  · rw [h.eq_append, hm, List.set_append_right _ _ le_rfl]
    simp [List.replicate_succ, hm']
  · simp; omega
  · rw [← List.concat_eq_append]
    exact h.nodup.concat hp
  · intro p hm
    rcases List.mem_append.mp hm with hm | hm
    · exact h.nonneg p hm
    · simpa [List.mem_singleton.mp hm] using h0

theorem evict (h : Table n f l) (hp : page ∉ l) (h0 : 0 ≤ page) (hl : l.length = n) (j : ℕ) :
    Table n (f.set j page) (l.set j page) := by
  have hf := h.eq_of_full hl
  subst hf
  constructor
  · simp [hl]
  · simp [hl]
  · exact h.nodup.set hp
  · intro p hm
    rcases List.mem_or_eq_of_mem_set hm with hm | rfl
    · exact h.nonneg p hm
    · exact h0

end Table

/-- One reference on the occupied frames `l`; a victim frame satisfies `V`. The flag is `replace`. -/
inductive Refers (n : ℕ) (page : ℤ) (V : ℕ → Prop) (l : List ℤ) : Bool → List ℤ → Prop where
  | hit : page ∈ l → Refers n page V l false l
  | load : page ∉ l → l.length < n → Refers n page V l true (l ++ [page])
  | evict {j : ℕ} : page ∉ l → l.length = n → j < n → V j → Refers n page V l true (l.set j page)

theorem toFinset_concat (l : List ℤ) (page : ℤ) :
    (l ++ [page]).toFinset = insert page l.toFinset := by
  ext a
  simp

theorem toFinset_set {l : List ℤ} {j : ℕ} (hl : l.Nodup) (hj : j < l.length) (page : ℤ) :
    (l.set j page).toFinset = insert page (l.toFinset.erase l[j]) := by
  have hs : l = l.take j ++ l[j] :: l.drop (j + 1) := by simp
  have hn : l[j] ∉ l.take j ++ l.drop (j + 1) := by
    rw [hs, List.perm_middle.nodup_iff] at hl
    exact (List.nodup_cons.mp hl).1
  rw [List.set_eq_take_append_cons_drop, if_pos hj]
  ext a
  have ha : a ∈ l ↔ a ∈ l.take j ∨ a = l[j] ∨ a ∈ l.drop (j + 1) := by
    rw [← List.mem_cons, ← List.mem_append, ← hs]
  simp only [List.mem_toFinset, List.mem_append, List.mem_cons, Finset.mem_insert, Finset.mem_erase,
    ha]
  rw [List.mem_append, not_or] at hn
  constructor
  · rintro (h | h | h)
    · exact Or.inr ⟨fun he => hn.1 (he ▸ h), Or.inl h⟩
    · exact Or.inl h
    · exact Or.inr ⟨fun he => hn.2 (he ▸ h), Or.inr (Or.inr h)⟩
  · rintro (h | ⟨hne, h | h | h⟩)
    · exact Or.inr (Or.inl h)
    · exact Or.inl h
    · exact absurd h hne
    · exact Or.inr (Or.inr h)

namespace Refers

variable {n : ℕ} {page : ℤ} {V : ℕ → Prop} {l l' : List ℤ} {b : Bool}

theorem toLazy (h : Refers n page V l b l') (hl : l.Nodup) :
    Lazy n page l.toFinset l'.toFinset := by
  cases h with
  | hit hp => exact .hit (by simpa using hp)
  | load hp hc =>
    rw [toFinset_concat]
    exact .load (by simpa using hp) (by rwa [List.toFinset_card_of_nodup hl])
  | @evict j hp hc hj =>
    rw [toFinset_set hl (hc ▸ hj)]
    exact .evict (by simpa using hp) (by rwa [List.toFinset_card_of_nodup hl]) (by simp)

theorem fault_iff (h : Refers n page V l b l') : b = true ↔ page ∉ l := by
  cases h with
  | hit hp => simp [hp]
  | load hp => simp [hp]
  | evict hp => simp [hp]

end Refers

/-- The variables a branch keeps between two references. -/
structure WellFormed (n : ℕ) (s : Frames) : Prop where
  table : Table n s.pageFrame s.pages
  bits_length : s.referenceBit.length = n
  bits : ∀ b ∈ s.referenceBit, b = 0 ∨ b = 1
  victim_lt : s.victim < n
  victim_zero : s.pages.length < n → s.victim = 0

/-- What one reference does to well-formed variables. -/
structure Step (n : ℕ) (page : ℤ) (V : ℕ → Prop) (s s' : Frames) : Prop where
  wellFormed : WellFormed n s'
  refers : Refers n page V s.pages s'.replace s'.pages
  pageFault : s'.pageFault = s.pageFault + if s'.replace then 1 else 0
  rows : s'.rows = s.rows

@[simp] theorem initial_pages (n : ℕ) : (initial n).pages = [] :=
  List.filter_eq_nil_iff.mpr (by simp +contextual [initial])

theorem initial_wellFormed {n : ℕ} (hn : 1 ≤ n) : WellFormed n (initial n) := by
  constructor
  · rw [initial_pages]; constructor <;> simp [initial]
  · simp [initial]
  · intro b hb; exact Or.inl (List.eq_of_mem_replicate hb)
  · exact hn
  · intro _; rfl

def placed (page : ℤ) (s : Frames) (j : ℕ) : Frames :=
  { s with pageFrame := s.pageFrame.set j page, pageFault := s.pageFault + 1, replace := true }

section Branch

variable {n : ℕ} {page : ℤ} {s s' : Frames} {V : ℕ → Prop} {evict : Frames → Option Frames}

theorem store_eq {a : List ℤ} {j : ℕ} (hj : j < a.length) (v : ℤ) :
    store a j v = some (a.set j v) := by
  simp [store, hj]

theorem place_eq {j : ℕ} (hj : j < s.pageFrame.length) : place page s j = some (placed page s j) := by
  simp [place, placed, store_eq hj]

theorem refer_hit (h : WellFormed n s) (hp : page ∈ s.pages) :
    refer evict page s = some { s with replace := false } := by
  obtain ⟨j, hj, _⟩ := h.table.lookup_hit hp
  simp [refer, hj]

theorem refer_load (h : WellFormed n s) (h0 : 0 ≤ page) (hp : page ∉ s.pages)
    (hl : s.pages.length < n) :
    refer evict page s = some (placed page s s.pages.length) := by
  simp [refer, h.table.lookup_free hp h0 hl, place_eq (h.table.length_eq ▸ hl)]

theorem refer_evict (h : WellFormed n s) (hp : page ∉ s.pages) (hl : s.pages.length = n) :
    refer evict page s = evict s := by
  simp [refer, h.table.lookup_absent hp hl]

theorem pages_load (h : WellFormed n s) (h0 : 0 ≤ page) (hp : page ∉ s.pages)
    (hl : s.pages.length < n) : (placed page s s.pages.length).pages = s.pages ++ [page] :=
  (h.table.load hp h0 hl).filter_eq

theorem pages_evict (h : WellFormed n s) (h0 : 0 ≤ page) (hp : page ∉ s.pages)
    (hl : s.pages.length = n) (j : ℕ) : (placed page s j).pages = s.pages.set j page :=
  (h.table.evict hp h0 hl j).filter_eq

theorem Step.of_hit (h : WellFormed n s) (hp : page ∈ s.pages) :
    Step n page V s { s with replace := false } :=
  ⟨⟨h.table, h.bits_length, h.bits, h.victim_lt, h.victim_zero⟩, .hit hp, by simp, rfl⟩

theorem Step.of_load (h : WellFormed n s) (h0 : 0 ≤ page) (hp : page ∉ s.pages)
    (hl : s.pages.length < n) : Step n page V s (placed page s s.pages.length) := by
  have hpages := pages_load h h0 hp hl
  refine ⟨⟨?_, h.bits_length, h.bits, h.victim_lt, fun _ => h.victim_zero hl⟩, ?_, rfl, rfl⟩
  · rw [hpages]; exact h.table.load hp h0 hl
  · rw [hpages]; exact .load hp hl

theorem Step.of_evict (h : WellFormed n s) (h0 : 0 ≤ page) (hp : page ∉ s.pages)
    (hl : s.pages.length = n) {j : ℕ} (hj : j < n) (hV : V j) :
    Step n page V s (placed page s j) := by
  have hpages := pages_evict h h0 hp hl j
  refine ⟨⟨?_, h.bits_length, h.bits, h.victim_lt, fun hlt => ?_⟩, ?_, rfl, rfl⟩
  · rw [hpages]; exact h.table.evict hp h0 hl j
  · rw [hpages, List.length_set] at hlt; omega
  · rw [hpages]; exact .evict hp hl hj hV

/-- A branch that places an absent page into a frame that its policy allows does a step. -/
theorem refer_step (h : WellFormed n s) (h0 : 0 ≤ page)
    (hevict : page ∉ s.pages → s.pages.length = n →
      ∃ j, j < n ∧ V j ∧ evict s = place page s (j : ℕ)) :
    ∃ s', refer evict page s = some s' ∧ Step n page V s s' := by
  by_cases hp : page ∈ s.pages
  · exact ⟨_, refer_hit h hp, .of_hit h hp⟩
  rcases h.table.length_le.lt_or_eq with hl | hl
  · exact ⟨_, refer_load h h0 hp hl, .of_load h h0 hp hl⟩
  · obtain ⟨j, hj, hV, he⟩ := hevict hp hl
    refine ⟨placed page s j, ?_, .of_evict h h0 hp hl hj hV⟩
    rw [refer_evict h hp hl, he, place_eq (by rw [h.table.length_eq]; exact hj)]

theorem Step.update (h : Step n page V s s') {bits : List ℤ} {v : ℕ} (hb : bits.length = n)
    (hbit : ∀ b ∈ bits, b = 0 ∨ b = 1) (hv : v < n) (hz : s'.pages.length < n → v = 0) :
    Step n page V s { s' with referenceBit := bits, victim := v } :=
  ⟨⟨h.wellFormed.table, hb, hbit, hv, hz⟩, h.refers, h.pageFault, h.rows⟩

end Branch

end OperatingSystem.Simulator
