import Mathlib.Algebra.BigOperators.Group.Finset.Basic
import Mathlib.Algebra.Order.BigOperators.Group.Finset
import OperatingSystem.Paging.Schedule

/-! # Comparing two lazy policies by weights

Give every resident page of a policy a weight of at most `c`. If no weight grows
while its page stays unreferenced, and a fault on full frames takes a unit from
every resident page, then the policy faults at most `c` times as often as any
lazy policy with the same frames: the pages that only the first policy holds pay
for its faults.
-/

namespace OperatingSystem.Paging

open Finset

variable {α : Type*} [DecidableEq α]

/-- The new weights of the resident pages, after a reference to `p`. -/
structure Weighing (k c : ℕ) (p : α) (T T' : Finset α) (W W' : α → ℕ) : Prop where
  le : ∀ a ∈ T, W a ≤ c
  mono : ∀ a ∈ T, a ∈ T' → a ≠ p → W' a ≤ W a
  evict : p ∉ T → T.card = k → ∀ a ∈ T, W' a + 1 ≤ W a ∨ a ∉ T' ∧ 1 ≤ W a

section Weighing

variable {k c : ℕ} {p : α} {S S' T T' : Finset α} {W W' : α → ℕ}

theorem Lazy.mem_of_mem_sdiff (hT : Lazy k p T T') (hS : Lazy k p S S') {a : α}
    (ha : a ∈ T' \ S') : a ≠ p ∧ a ∈ T := by
  obtain ⟨haT, haS⟩ := mem_sdiff.mp ha
  have hne : a ≠ p := fun h => haS (h ▸ hS.mem)
  exact ⟨hne, (mem_insert.mp (hT.subset haT)).resolve_left hne⟩

theorem Lazy.sdiff_subset (hT : Lazy k p T T') (hS : Lazy k p S S') : T' \ S' ⊆ T \ S' := by
  intro a ha
  exact mem_sdiff.mpr ⟨(hT.mem_of_mem_sdiff hS ha).2, (mem_sdiff.mp ha).2⟩

theorem Weighing.sum_le (h : Weighing k c p T T' W W') (hT : Lazy k p T T') (hS : Lazy k p S S') :
    ∑ a ∈ T' \ S', W' a ≤ ∑ a ∈ T \ S', W a := by
  calc ∑ a ∈ T' \ S', W' a ≤ ∑ a ∈ T' \ S', W a := by
        refine Finset.sum_le_sum fun a ha => ?_
        obtain ⟨hne, haT⟩ := hT.mem_of_mem_sdiff hS ha
        exact h.mono a haT (mem_sdiff.mp ha).1 hne
    _ ≤ ∑ a ∈ T \ S', W a := Finset.sum_le_sum_of_subset (hT.sdiff_subset hS)

theorem Weighing.sum_lt (h : Weighing k c p T T' W W') (hT : Lazy k p T T') (hS : Lazy k p S S')
    (hp : p ∉ T) (hk : T.card = k) (hne : (T \ S').Nonempty) :
    ∑ a ∈ T' \ S', W' a + 1 ≤ ∑ a ∈ T \ S', W a := by
  have hpay : ∀ a ∈ T \ S', (if a ∈ T' \ S' then W' a else 0) + 1 ≤ W a := by
    intro a ha
    obtain ⟨haT, haS⟩ := mem_sdiff.mp ha
    rcases h.evict hp hk a haT with hlt | ⟨hout, hpos⟩
    · split <;> omega
    · rw [if_neg fun ha' => hout (mem_sdiff.mp ha').1]
      omega
  have hsum : ∑ a ∈ T' \ S', W' a = ∑ a ∈ T \ S', if a ∈ T' \ S' then W' a else 0 := by
    rw [← Finset.sum_filter, Finset.filter_mem_eq_inter,
      Finset.inter_eq_right.mpr (hT.sdiff_subset hS)]
  calc ∑ a ∈ T' \ S', W' a + 1
      ≤ ∑ a ∈ T \ S', (if a ∈ T' \ S' then W' a else 0) + (T \ S').card := by
        rw [hsum]
        exact Nat.add_le_add_left (Finset.card_pos.mpr hne) _
    _ = ∑ a ∈ T \ S', ((if a ∈ T' \ S' then W' a else 0) + 1) := by
        rw [Finset.sum_add_distrib, Finset.card_eq_sum_ones]
    _ ≤ ∑ a ∈ T \ S', W a := Finset.sum_le_sum hpay

theorem Weighing.sum_sdiff_le (h : Weighing k c p T T' W W') (hS : Lazy k p S S') :
    ∑ a ∈ T \ S', W a ≤ ∑ a ∈ T \ S, W a + c * (if p ∈ S then 0 else 1) := by
  cases hS with
  | hit => exact Nat.le_add_right _ _
  | load =>
    exact (Finset.sum_le_sum_of_subset (sdiff_subset_sdiff subset_rfl (subset_insert _ _))).trans
      (Nat.le_add_right _ _)
  | @evict x hp hc hx =>
    rw [if_neg hp, Nat.mul_one]
    have hsub : T \ insert p (S.erase x) ⊆ (T \ S) ∪ (T ∩ {x}) := by
      intro a ha
      simp only [mem_sdiff, mem_insert, mem_erase, not_or, not_and, mem_union, mem_inter,
        mem_singleton] at ha ⊢
      rcases eq_or_ne a x with hax | hax
      · exact Or.inr ⟨ha.1, hax⟩
      · exact Or.inl ⟨ha.1, ha.2.2 hax⟩
    have hx : ∑ a ∈ T ∩ {x}, W a ≤ c := by
      by_cases hxT : x ∈ T
      · rw [Finset.inter_singleton_of_mem hxT, Finset.sum_singleton]
        exact h.le x hxT
      · rw [Finset.inter_singleton_of_notMem hxT, Finset.sum_empty]
        exact Nat.zero_le _
    calc ∑ a ∈ T \ insert p (S.erase x), W a ≤ ∑ a ∈ (T \ S) ∪ (T ∩ {x}), W a :=
          Finset.sum_le_sum_of_subset hsub
      _ ≤ ∑ a ∈ T \ S, W a + ∑ a ∈ T ∩ {x}, W a := by
          rw [← Finset.sum_union_inter]
          exact Nat.le_add_right _ _
      _ ≤ ∑ a ∈ T \ S, W a + c := Nat.add_le_add_left hx _

/-- Fault of the policy plus its new weights, against its weights and `c` times the other fault. -/
theorem Weighing.charge (h : Weighing k c p T T' W W') (hc : 1 ≤ c) (hT : Lazy k p T T')
    (hS : Lazy k p S S') (hcard : S.card ≤ k) (hfree : T.card < k → S ⊆ T) (hle : T.card ≤ k) :
    (if p ∈ T then 0 else 1) + ∑ a ∈ T' \ S', W' a ≤
      ∑ a ∈ T \ S, W a + c * (if p ∈ S then 0 else 1) := by
  have hcost := h.sum_sdiff_le hS
  have hmono := h.sum_le hT hS
  by_cases hp : p ∈ T
  · rw [if_pos hp]
    omega
  rw [if_neg hp]
  rcases hle.lt_or_eq with hlt | hk
  · -- with a frame to spare the policy holds every page of the other one, which loads as well
    have hpS : p ∉ S := fun hpS => hp (hfree hlt hpS)
    have hsub : S ⊆ S' := by
      cases hS with
      | hit => exact subset_rfl
      | load => exact subset_insert _ _
      | evict _ hc' _ =>
        have := Finset.card_le_card (hfree hlt)
        omega
    have hload : ∑ a ∈ T \ S', W a ≤ ∑ a ∈ T \ S, W a :=
      Finset.sum_le_sum_of_subset (sdiff_subset_sdiff subset_rfl hsub)
    rw [if_neg hpS]
    omega
  · have hne : (T \ S').Nonempty := by
      by_contra hempty
      have hTS : T ⊆ S' := sdiff_eq_empty_iff_subset.mp (Finset.not_nonempty_iff_eq_empty.mp hempty)
      have hle' := Finset.card_le_card (insert_subset hS.mem hTS)
      have := hS.card_le hcard
      rw [Finset.card_insert_of_notMem hp] at hle'
      omega
    have := h.sum_lt hT hS hp hk hne
    omega

end Weighing

section Run

variable {k c : ℕ} {r : List α} {S T : ℕ → Finset α}

theorem lazy_subset_of_card_lt (hT0 : T 0 = ∅)
    (hT : ∀ i (h : i < r.length), Lazy k r[i] (T i) (T (i + 1))) (hS0 : S 0 = ∅)
    (hS : ∀ i (h : i < r.length), Lazy k r[i] (S i) (S (i + 1))) {i : ℕ} (hi : i ≤ r.length)
    (hlt : (T i).card < k) : S i ⊆ T i := by
  rw [lazy_eq_of_card_lt hT0 hT i hi hlt]
  exact lazy_subset hS0 hS i hi

theorem faultCount_le_of_weighing {W : ℕ → α → ℕ} (hc : 1 ≤ c) (hT0 : T 0 = ∅)
    (hT : ∀ i (h : i < r.length), Lazy k r[i] (T i) (T (i + 1))) (hS0 : S 0 = ∅)
    (hS : ∀ i (h : i < r.length), Lazy k r[i] (S i) (S (i + 1)))
    (hW : ∀ i (h : i < r.length), Weighing k c r[i] (T i) (T (i + 1)) (W i) (W (i + 1))) :
    faultCount r T r.length ≤ c * faultCount r S r.length := by
  have hrun : ∀ i, i ≤ r.length →
      faultCount r T i + ∑ a ∈ T i \ S i, W i a ≤ c * faultCount r S i := by
    intro i
    induction i with
    | zero => intro _; simp [hT0]
    | succ i ih =>
      intro hi
      have hle := ih (by omega)
      have hcharge := (hW i hi).charge hc (hT i hi) (hS i hi) (lazy_card_le hS0 hS i (by omega))
        (lazy_subset_of_card_lt hT0 hT hS0 hS (by omega)) (lazy_card_le hT0 hT i (by omega))
      rw [faultCount_succ hi, faultCount_succ hi, Nat.mul_add]
      omega
  exact (Nat.le_add_right _ _).trans (hrun r.length le_rfl)

end Run

end OperatingSystem.Paging
