import OperatingSystem.Paging.Belady
import OperatingSystem.Paging.Scan
import OperatingSystem.Simulator.Table

/-! # The OPT branch

The nested search of the OPT branch ends at the first frame whose page is never
referenced again or, if there is none, at the frame whose page is referenced
last. Either way the victim is a farthest page, so the branch follows the rule
that attains the minimum number of faults.
-/

namespace OperatingSystem.Simulator

open Paging

variable {r : List ℤ} {i : ℕ}

theorem nextUse_eq (p : ℤ) (l : List ℤ) (k : ℕ) :
    nextUse p l k = if p ∈ l then some (k + l.idxOf p) else none := by
  induction l generalizing k with
  | nil => simp [nextUse]
  | cons q l ih =>
    rw [nextUse]
    split
    case isTrue h => simp [h]
    case isFalse h =>
      rw [ih, List.idxOf_cons_ne _ (Ne.symm h)]
      simp only [List.mem_cons, h, false_or]
      split <;> simp; omega

theorem optVictim_of_notMem {a b : List ℤ} {p : ℤ} (ha : ∀ q ∈ a, q ∈ r.drop (i + 1))
    (hp : p ∉ r.drop (i + 1)) (j : ℕ) (location victim : ℤ) :
    optVictim r i (a ++ p :: b) j location victim = (j + a.length : ℕ) := by
  induction a generalizing j location victim with
  | nil => simp [optVictim, nextUse_eq, hp]
  | cons q a ih =>
    have hq := ha q List.mem_cons_self
    have ih := ih (fun q h => ha q (List.mem_cons_of_mem _ h)) (j + 1)
    rw [List.cons_append, optVictim, nextUse_eq, if_pos hq]
    simp only [ih, ite_self, List.length_cons]
    omega

theorem optVictim_eq_scan {f : List ℤ} (hf : ∀ q ∈ f, q ∈ r.drop (i + 1)) (j : ℕ)
    (location victim : ℤ) :
    optVictim r i f j location victim =
      scan (fun q => -((i + 1 + (r.drop (i + 1)).idxOf q : ℕ) : ℤ)) f j (-location) victim := by
  induction f generalizing j location victim with
  | nil => rfl
  | cons p f ih =>
    have hp := hf p List.mem_cons_self
    have ih := ih (fun q h => hf q (List.mem_cons_of_mem _ h))
    rw [optVictim, nextUse_eq, if_pos hp, scan]
    simp only [ih, neg_lt_neg_iff]

/-- The search ends at the first page that is not referenced again or, if there is none, at a page
that is referenced last. -/
theorem optVictim_cases {f : List ℤ} (hf : f ≠ []) :
    ∃ a p b, f = a ++ p :: b ∧ optVictim r i f 0 (-1) (-1) = a.length ∧
      (((∀ q ∈ a, q ∈ r.drop (i + 1)) ∧ p ∉ r.drop (i + 1)) ∨
        ((∀ q ∈ f, q ∈ r.drop (i + 1)) ∧
          ∀ q ∈ f, (r.drop (i + 1)).idxOf q ≤ (r.drop (i + 1)).idxOf p)) := by
  by_cases hall : ∀ q ∈ f, q ∈ r.drop (i + 1)
  · rw [optVictim_eq_scan hall]
    obtain ⟨_, hle⟩ | ⟨a, p, b, rfl, he, _, hle⟩ :=
      scan_cases (fun q => -((i + 1 + (r.drop (i + 1)).idxOf q : ℕ) : ℤ)) f 0 (-(-1)) (-1)
    · obtain ⟨q, hq⟩ := List.exists_mem_of_ne_nil f hf
      have := hle q hq
      omega
    · refine ⟨a, p, b, rfl, by rw [he, Nat.zero_add], Or.inr ⟨hall, fun q hq => ?_⟩⟩
      have := hle q hq
      omega
  · push Not at hall
    obtain ⟨a, p, b, rfl, ha, hp⟩ : ∃ a p b, f = a ++ p :: b ∧
        (∀ q ∈ a, q ∈ r.drop (i + 1)) ∧ p ∉ r.drop (i + 1) := by
      clear hf
      induction f with
      | nil => simp at hall
      | cons q f ih =>
        by_cases hq : q ∈ r.drop (i + 1)
        · obtain ⟨a, p, b, rfl, ha, hp⟩ := ih (by simpa [hq] using hall)
          exact ⟨q :: a, p, b, rfl, List.forall_mem_cons.mpr ⟨hq, ha⟩, hp⟩
        · exact ⟨[], q, f, rfl, by simp, hq⟩
    refine ⟨a, p, b, rfl, ?_, Or.inl ⟨ha, hp⟩⟩
    rw [optVictim_of_notMem ha hp, Nat.zero_add]

/-- Frame `j` holds a page whose next reference after `i` is farthest. -/
def FarthestFrame (r : List ℤ) (i : ℕ) (f : List ℤ) (j : ℕ) : Prop :=
  ∃ p, f[j]? = some p ∧ ∀ q ∈ f, (r.drop (i + 1)).idxOf q ≤ (r.drop (i + 1)).idxOf p

theorem optVictim_farthest {f : List ℤ} (hf : f ≠ []) :
    ∃ j, j < f.length ∧ optVictim r i f 0 (-1) (-1) = j ∧ FarthestFrame r i f j := by
  obtain ⟨a, p, b, rfl, he, hcases⟩ := optVictim_cases (r := r) (i := i) hf
  refine ⟨a.length, by simp, he, p, by simp, ?_⟩
  rcases hcases with ⟨_, hp⟩ | ⟨_, hle⟩
  · intro q _
    rw [List.idxOf_eq_length hp]
    exact List.idxOf_le_length
  · exact hle

/-- The search ends inside the frames: at the first frame whose page is not referenced again or, if
every page is, at the frame whose page is referenced later than all others. -/
theorem optVictim_rule {n : ℕ} {f : List ℤ} (hn : 1 ≤ n) (hl : f.length = n) (hf : f.Nodup) :
    ∃ (j : ℕ) (p : ℤ), optVictim r i f 0 (-1) (-1) = j ∧ j < n ∧ f[j]? = some p ∧
      ((∃ q ∈ f, q ∉ r.drop (i + 1)) →
        p ∉ r.drop (i + 1) ∧ ∀ q ∈ f.take j, q ∈ r.drop (i + 1)) ∧
      ((∀ q ∈ f, q ∈ r.drop (i + 1)) →
        ∀ q ∈ f, q ≠ p → (r.drop (i + 1)).idxOf q < (r.drop (i + 1)).idxOf p) := by
  subst hl
  obtain ⟨a, p, b, rfl, he, hcases⟩ := optVictim_cases (r := r) (i := i)
    (List.ne_nil_of_length_pos hn)
  refine ⟨a.length, p, he, by simp, by simp, ?_, ?_⟩
  · rintro ⟨q, hq, hnot⟩
    rcases hcases with ⟨ha, hp⟩ | ⟨hall, _⟩
    · rw [List.take_left]
      exact ⟨hp, ha⟩
    · exact absurd (hall q hq) hnot
  · intro hall q hq hne
    rcases hcases with ⟨_, hp⟩ | ⟨_, hle⟩
    · exact absurd (hall p (by simp)) hp
    · apply lt_of_le_of_ne (hle q hq)
      intro heq
      exact hne ((List.idxOf_inj (hall q hq)).mp heq)

/-- Pages 7 and 9 are not referenced again, and page 7 is found first. -/
theorem optVictim_rule_first : ∃ (j : ℕ) (p : ℤ),
    optVictim [5, 2, 2] 0 [2, 7, 9] 0 (-1) (-1) = j ∧ j < 3 ∧ [2, 7, 9][j]? = some p ∧
      p ∉ [2, 2] ∧ ∀ q ∈ ([2, 7, 9] : List ℤ).take j, q ∈ ([2, 2] : List ℤ) := by
  obtain ⟨j, p, he, hj, hp, hfirst, _⟩ :=
    optVictim_rule (r := [5, 2, 2]) (i := 0) (f := [2, 7, 9]) (by decide) rfl (by decide)
  exact ⟨j, p, he, hj, hp, hfirst ⟨7, by decide, by decide⟩⟩

theorem Refers.farthest {n : ℕ} {page : ℤ} {l l' : List ℤ} {b : Bool}
    (h : Refers n page (FarthestFrame r i l) l b l') (hl : l.Nodup) :
    Farthest n page (r.drop (i + 1)) l.toFinset l'.toFinset := by
  cases h with
  | hit hp => exact .hit (by simpa using hp)
  | load hp hc =>
    rw [toFinset_concat]
    exact .load (by simpa using hp) (by rwa [List.toFinset_card_of_nodup hl])
  | @evict j hp hc hj hV =>
    obtain ⟨p, hp', hfar⟩ := hV
    obtain ⟨hlt, rfl⟩ := List.getElem?_eq_some_iff.mp hp'
    rw [toFinset_set hl hlt]
    exact .evict (by simpa using hp) (by rwa [List.toFinset_card_of_nodup hl]) (by simp)
      (by simpa using hfar)

/-- One iteration of the OPT branch evicts a farthest page. -/
theorem optReference_step {n : ℕ} {page : ℤ} {s : Frames} (hn : 1 ≤ n) (h : WellFormed n s)
    (h0 : 0 ≤ page) :
    ∃ s', optReference r i page s = some s' ∧ Step n page (FarthestFrame r i s.pages) s s' := by
  apply refer_step h h0
  intro hp hl
  have hf := h.table.eq_of_full hl
  obtain ⟨j, hj, he, hV⟩ := optVictim_farthest (r := r) (i := i) (f := s.pages)
    (List.ne_nil_of_length_pos (by omega))
  refine ⟨j, by omega, hV, ?_⟩
  rw [hf, he]

end OperatingSystem.Simulator
