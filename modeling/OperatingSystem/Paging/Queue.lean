import OperatingSystem.Paging.Schedule

/-! # Queues of resident pages

First-in-first-out and least-recently-used replacement both keep the resident
pages in a bounded queue, newest first, and drop the oldest page when a fault
finds the queue full. A weighted count of the queued pages that another policy
does not hold bounds their faults by `k` times the faults of that policy.
-/

namespace OperatingSystem.Paging

variable {α : Type*} [DecidableEq α]

/-- The next queue: a hit keeps it or brings the page to the front, a fault pushes the page. -/
inductive Push (k : ℕ) (p : α) (q : List α) : List α → Prop where
  | keep : p ∈ q → Push k p q q
  | front : p ∈ q → Push k p q (p :: q.erase p)
  | load : p ∉ q → Push k p q ((p :: q).take k)

/-- The total weight of the queued pages outside `S`, when the head weighs `w`. -/
def debt (S : Finset α) : ℕ → List α → ℕ
  | _, [] => 0
  | w, p :: q => (if p ∈ S then 0 else w) + debt S (w - 1) q

section Debt

variable {S S' : Finset α} {p x : α} {q q' : List α} {k w : ℕ}

theorem debt_mono {v : ℕ} (h : v ≤ w) : debt S v q ≤ debt S w q := by
  induction q generalizing v w with
  | nil => simp [debt]
  | cons a q ih =>
    have := ih (show v - 1 ≤ w - 1 by omega)
    simp only [debt]
    split <;> omega

theorem debt_take_le {m : ℕ} : debt S w (q.take m) ≤ debt S w q := by
  induction q generalizing m w with
  | nil => simp
  | cons a q ih =>
    cases m with
    | zero => simp [debt]
    | succ m => simpa [debt] using ih

theorem debt_subset (h : S ⊆ S') : debt S' w q ≤ debt S w q := by
  induction q generalizing w with
  | nil => simp [debt]
  | cons a q ih =>
    have hle := ih (w := w - 1)
    have ha : a ∈ S → a ∈ S' := fun ha => h ha
    simp only [debt]
    split_ifs <;> first | omega | tauto

theorem debt_erase_le (hq : q.Nodup) : debt (S.erase x) w q ≤ debt S w q + w := by
  induction q generalizing w with
  | nil => simp [debt]
  | cons a q ih =>
    have hn := List.nodup_cons.mp hq
    by_cases hax : a = x
    · subst hax
      have hsame : debt (S.erase a) (w - 1) q = debt S (w - 1) q := by
        have hsub : ∀ q : List α, a ∉ q → ∀ v, debt (S.erase a) v q = debt S v q := by
          intro q
          induction q with
          | nil => intros; rfl
          | cons b q ih =>
            intro hb v
            have hne : b ≠ a := fun h => hb (h ▸ List.mem_cons_self)
            simp [debt, hne, ih (fun h => hb (List.mem_cons_of_mem _ h))]
        exact hsub q hn.1 _
      simp only [debt, hsame, Finset.notMem_erase, if_false]
      split <;> omega
    · have := ih hn.2 (w := w - 1)
      simp only [debt, Finset.mem_erase, ne_eq, hax, not_false_eq_true, true_and]
      split <;> omega

/-- Lowering every weight by one saves at least one unit when a queued page lies outside `S`. -/
theorem debt_pred_lt (hw : q.length ≤ w) (hx : x ∈ q) (hS : x ∉ S) :
    debt S (w - 1) q + 1 ≤ debt S w q := by
  induction q generalizing w with
  | nil => simp at hx
  | cons a q ih =>
    have hlen : q.length + 1 ≤ w := by simpa using hw
    rcases List.mem_cons.mp hx with rfl | hx
    · have := debt_mono (S := S) (q := q) (show w - 1 - 1 ≤ w - 1 by omega)
      simp only [debt, if_neg hS]
      omega
    · have := ih (w := w - 1) (by omega) hx
      simp only [debt]
      split <;> omega

theorem debt_erase_front (hp : p ∈ S) : debt S w (p :: q.erase p) ≤ debt S w q := by
  have haux : ∀ q : List α, p ∈ q → ∀ w, debt S (w - 1) (q.erase p) ≤ debt S w q := by
    intro q
    induction q with
    | nil => intro h; simp at h
    | cons a q ih =>
      intro h w
      by_cases hap : a = p
      · subst hap; simp [debt, hp]
      · have hq : p ∈ q := (List.mem_cons.mp h).resolve_left (fun h => hap h.symm)
        have := ih hq (w - 1)
        rw [List.erase_cons_tail (by simpa using hap)]
        simp only [debt]
        split <;> omega
  by_cases hq : p ∈ q
  · simpa [debt, hp] using haux q hq w
  · rw [List.erase_of_not_mem hq]
    simpa [debt, hp] using debt_mono (by omega)

end Debt

namespace Push

variable {k : ℕ} {p : α} {q q' : List α}

theorem nodup (h : Push k p q q') (hq : q.Nodup) : q'.Nodup := by
  cases h with
  | keep => exact hq
  | front hp => exact List.nodup_cons.mpr ⟨fun h => (hq.mem_erase_iff.mp h).1 rfl, hq.erase p⟩
  | load hp => exact (List.nodup_cons.mpr ⟨hp, hq⟩).sublist (List.take_sublist _ _)

theorem length_le (h : Push k p q q') (hq : q.length ≤ k) : q'.length ≤ k := by
  cases h with
  | keep => exact hq
  | front hp =>
    have := List.length_erase_of_mem hp
    have := List.length_pos_of_mem hp
    simp only [List.length_cons]
    omega
  | load => simp

theorem subset_of_length_lt (h : Push k p q q') (hk : q'.length < k) : p :: q ⊆ q' := by
  cases h with
  | keep hp => exact List.cons_subset.mpr ⟨hp, List.Subset.refl _⟩
  | front hp =>
    refine List.cons_subset.mpr ⟨List.mem_cons_self, fun a ha => ?_⟩
    by_cases hap : a = p
    · exact hap ▸ List.mem_cons_self
    · exact List.mem_cons_of_mem _ ((List.mem_erase_of_ne hap).mpr ha)
  | load =>
    have hlen : (p :: q).length ≤ k := by
      simp only [List.length_take] at hk
      omega
    rw [List.take_of_length_le hlen]
    exact List.Subset.refl _

/-- Fault of the queue plus new debt, against the debt and `k` times the fault of a lazy policy. -/
theorem charge {S S' : Finset α} (hk : 1 ≤ k) (h : Push k p q q') (hS : Lazy k p S S')
    (hq : q.Nodup) (hlen : q.length ≤ k) (hcard : S.card ≤ k)
    (hfull : q.length < k → S ⊆ q.toFinset) :
    (if p ∈ q then 0 else 1) + debt S' k q' ≤ debt S k q + k * (if p ∈ S then 0 else 1) := by
  have hp' := hS.mem
  -- what the other policy's step costs, at any head weight
  have hcost : ∀ w, debt S' w q ≤ debt S w q + w * (if p ∈ S then 0 else 1) := by
    intro w
    cases hS with
    | hit hp => simp [hp]
    | load hp => exact (debt_subset (Finset.subset_insert _ _)).trans (Nat.le_add_right _ _)
    | evict hp _ hx =>
      simpa [hp] using (debt_subset (Finset.subset_insert _ _)).trans (debt_erase_le hq)
  cases h with
  | keep hp => simpa [hp] using hcost k
  | front hp => simpa [hp] using (debt_erase_front hp').trans (hcost k)
  | load hp =>
    obtain ⟨k, rfl⟩ : ∃ j, k = j + 1 := ⟨k - 1, by omega⟩
    have hpush : debt S' (k + 1) ((p :: q).take (k + 1)) ≤ debt S' k q := by
      simpa [debt, hp'] using debt_take_le
    have hk' := hcost k
    have hmono := debt_mono (S := S) (q := q) (show k ≤ k + 1 by omega)
    rw [if_neg hp]
    by_cases hpS : p ∈ S
    · -- the queue is full and holds a page that the other policy does not
      have hqfull : ¬ q.length < k + 1 := fun hlt => hp (by simpa using hfull hlt hpS)
      obtain ⟨x, hx, hxS⟩ : ∃ x ∈ q, x ∉ S := by
        by_contra hall
        push Not at hall
        have hsub : insert p q.toFinset ⊆ S := by
          refine Finset.insert_subset hpS fun a ha => hall a (by simpa using ha)
        have hc := Finset.card_le_card hsub
        rw [Finset.card_insert_of_notMem (by simpa using hp), List.toFinset_card_of_nodup hq] at hc
        omega
      have := debt_pred_lt hlen hx hxS
      simp only [if_pos hpS, Nat.add_sub_cancel] at *
      omega
    · simp only [if_neg hpS] at *
      omega

end Push

/-- First-in-first-out replacement on a queue of at most `k` pages, oldest first. -/
def enqueue (k : ℕ) (p : α) (q : List α) : List α :=
  if p ∈ q then q else if q.length < k then q ++ [p] else q.tail ++ [p]

theorem push_enqueue {k : ℕ} {p : α} {q : List α} (hk : 1 ≤ k) (hq : q.length ≤ k) :
    Push k p q.reverse (enqueue k p q).reverse := by
  unfold enqueue
  split_ifs with hp hl
  · exact .keep (by simpa using hp)
  · have hpush := Push.load (k := k) (p := p) (q := q.reverse) (by simpa using hp)
    rw [List.take_of_length_le (by simp; omega)] at hpush
    simpa using hpush
  · have hpush := Push.load (k := k) (p := p) (q := q.reverse) (by simpa using hp)
    obtain ⟨k, rfl⟩ : ∃ j, k = j + 1 := ⟨k - 1, by omega⟩
    have ht : q.reverse.take k = q.tail.reverse := by
      rw [List.take_reverse, show q.length - k = 1 by omega, List.drop_one]
    rw [List.take_succ_cons, ht] at hpush
    simpa using hpush

/-- The pages ordered by recency, after `p` has been used. -/
def touch (p : α) (l : List α) : List α := p :: l.erase p

/-- The distinct pages of a string, most recently used first. -/
def recency (r : List α) : List α := r.foldl (fun l p => touch p l) []

section Recency

variable {p : α} {l r : List α} {k : ℕ}

theorem recency_take_succ {i : ℕ} (h : i < r.length) :
    recency (r.take (i + 1)) = touch r[i] (recency (r.take i)) := by
  rw [List.take_succ_eq_append_getElem h, recency, List.foldl_append]
  rfl

theorem touch_nodup (h : l.Nodup) : (touch p l).Nodup :=
  List.nodup_cons.mpr ⟨fun hp => (h.mem_erase_iff.mp hp).1 rfl, h.erase p⟩

theorem recency_nodup : (recency r).Nodup := by
  induction r using List.reverseRecOn with
  | nil => exact List.nodup_nil
  | append_singleton r p ih =>
    rw [recency, List.foldl_append]
    exact touch_nodup ih

theorem mem_touch {a : α} : a ∈ touch p l ↔ a = p ∨ a ∈ l := by
  rw [touch, List.mem_cons]
  constructor
  · rintro (h | h)
    · exact Or.inl h
    · exact Or.inr (List.mem_of_mem_erase h)
  · rintro (h | h)
    · exact Or.inl h
    · rcases eq_or_ne a p with he | hne
      · exact Or.inl he
      · exact Or.inr ((List.mem_erase_of_ne hne).mpr h)

theorem mem_recency {a : α} : a ∈ recency r ↔ a ∈ r := by
  induction r using List.reverseRecOn with
  | nil => rfl
  | append_singleton r p ih =>
    rw [recency, List.foldl_append]
    refine mem_touch.trans ?_
    rw [List.mem_append, List.mem_singleton, or_comm]
    exact or_congr ih Iff.rfl

theorem take_erase_of_mem : ∀ {l : List α} {k : ℕ}, p ∈ l.take (k + 1) →
    (l.erase p).take k = (l.take (k + 1)).erase p
  | [], _, h => by simp at h
  | a :: l, k, h => by
    rcases eq_or_ne a p with rfl | hne
    · simp
    · rw [List.take_succ_cons, List.mem_cons] at h
      have hp := h.resolve_left hne.symm
      cases k with
      | zero => simp at hp
      | succ k =>
        rw [List.erase_cons_tail (by simpa using hne), List.take_succ_cons, List.take_succ_cons,
          List.erase_cons_tail (by simpa using hne), take_erase_of_mem hp]

theorem take_erase_of_notMem : ∀ {l : List α} {k : ℕ}, p ∉ l.take k →
    (l.erase p).take k = l.take k
  | [], _, _ => by simp
  | _, 0, _ => by simp
  | a :: l, k + 1, h => by
    rw [List.take_succ_cons, List.mem_cons, not_or] at h
    rw [List.erase_cons_tail (by simpa using Ne.symm h.1), List.take_succ_cons, List.take_succ_cons,
      take_erase_of_notMem h.2]

theorem push_touch (hk : 1 ≤ k) : Push k p (l.take k) ((touch p l).take k) := by
  obtain ⟨k, rfl⟩ : ∃ j, k = j + 1 := ⟨k - 1, by omega⟩
  rcases Decidable.em (p ∈ l.take (k + 1)) with hp | hp
  · rw [touch, List.take_succ_cons, take_erase_of_mem hp]
    exact .front hp
  · have hp' : p ∉ l.take k := fun h => hp (List.take_subset_take_left _ (by omega) h)
    have hpush := Push.load (k := k + 1) hp
    rwa [List.take_succ_cons, List.take_take, min_eq_left (by omega),
      ← take_erase_of_notMem hp'] at hpush

end Recency

section Competitive

variable {k : ℕ} {r : List α} {q : ℕ → List α} {S : ℕ → Finset α}

theorem push_invariant (h0 : q 0 = []) (hq : ∀ i (h : i < r.length), Push k r[i] (q i) (q (i + 1)))
    (hS0 : S 0 = ∅) (hS : ∀ i (h : i < r.length), Lazy k r[i] (S i) (S (i + 1))) :
    ∀ i, i ≤ r.length → (q i).Nodup ∧ (q i).length ≤ k ∧
      ((q i).length < k → S i ⊆ (q i).toFinset) := by
  intro i
  induction i with
  | zero => intro _; simp [h0, hS0]
  | succ i ih =>
    intro hi
    obtain ⟨hn, hl, hf⟩ := ih (by omega)
    refine ⟨(hq i hi).nodup hn, (hq i hi).length_le hl, fun hlt => ?_⟩
    have hsub := (hq i hi).subset_of_length_lt hlt
    have hlt' : (q i).length < k := by
      have := hn.length_le_of_subset (List.cons_subset.mp hsub).2
      omega
    intro a ha
    rw [List.mem_toFinset]
    apply hsub
    rcases Finset.mem_insert.mp ((hS i hi).subset ha) with rfl | ha
    · exact List.mem_cons_self
    · exact List.mem_cons_of_mem _ (by simpa using hf hlt' ha)

theorem faultCount_push_le (hk : 1 ≤ k) (h0 : q 0 = [])
    (hq : ∀ i (h : i < r.length), Push k r[i] (q i) (q (i + 1)))
    (hS0 : S 0 = ∅) (hS : ∀ i (h : i < r.length), Lazy k r[i] (S i) (S (i + 1))) :
    faultCount r (fun i => (q i).toFinset) r.length ≤ k * faultCount r S r.length := by
  have hrun : ∀ i, i ≤ r.length →
      faultCount r (fun i => (q i).toFinset) i + debt (S i) k (q i) ≤ k * faultCount r S i := by
    intro i
    induction i with
    | zero => intro _; simp [h0, debt]
    | succ i ih =>
      intro hi
      obtain ⟨hn, hl, hf⟩ := push_invariant h0 hq hS0 hS i (by omega)
      have hle := ih (by omega)
      have hc := (hq i hi).charge hk (hS i hi) hn hl (lazy_card_le hS0 hS i (by omega)) hf
      rw [faultCount_succ hi, faultCount_succ hi, Nat.mul_add]
      simp only [List.mem_toFinset]
      omega
  exact (Nat.le_add_right _ _).trans (hrun r.length le_rfl)

end Competitive

end OperatingSystem.Paging
