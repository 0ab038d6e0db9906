import Mathlib.Data.Finset.Card
import Mathlib.Data.List.Basic
import Mathlib.Order.Bounds.Basic
import Mathlib.Tactic.Ring

/-! # Demand-paging schedules

A schedule lists the resident set before every reference of a string. A
resident set contains the page just referenced, loads nothing else and never
exceeds the number of frames. The lazy schedules load on a fault only and evict
one page only when every frame is in use.
-/

namespace OperatingSystem.Paging

variable {α : Type*} [DecidableEq α]

def Fault (r : List α) (S : ℕ → Finset α) (i : ℕ) : Prop :=
  ∃ h : i < r.length, r[i] ∉ S i

instance (r : List α) (S : ℕ → Finset α) : DecidablePred (Fault r S) := fun i =>
  inferInstanceAs (Decidable (∃ h : i < r.length, r[i] ∉ S i))

/-- The number of faults among the first `m` references. -/
def faultCount (r : List α) (S : ℕ → Finset α) (m : ℕ) : ℕ :=
  ((Finset.range m).filter (Fault r S)).card

/-- A feasible schedule for `k` frames, one resident set before each reference. -/
structure Schedule (k : ℕ) (r : List α) where
  resident : ℕ → Finset α
  start : resident 0 = ∅
  served : ∀ i (h : i < r.length), r[i] ∈ resident (i + 1)
  demand : ∀ i (h : i < r.length), resident (i + 1) ⊆ insert r[i] (resident i)
  card_le : ∀ i, i < r.length → (resident (i + 1)).card ≤ k

def Schedule.faults {k : ℕ} {r : List α} (S : Schedule k r) : ℕ :=
  faultCount r S.resident r.length

/-- The new resident set of a policy that evicts one page, and only to make room. -/
inductive Lazy (k : ℕ) (p : α) (S : Finset α) : Finset α → Prop where
  | hit : p ∈ S → Lazy k p S S
  | load : p ∉ S → S.card < k → Lazy k p S (insert p S)
  | evict {x : α} : p ∉ S → S.card = k → x ∈ S → Lazy k p S (insert p (S.erase x))

section FaultCount

variable {r : List α} {S : ℕ → Finset α} {i : ℕ}

@[simp] theorem faultCount_zero : faultCount r S 0 = 0 := by simp [faultCount]

theorem faultCount_succ_of_mem (h : i < r.length) (hm : r[i] ∈ S i) :
    faultCount r S (i + 1) = faultCount r S i := by
  have hf : ¬ Fault r S i := fun ⟨_, hn⟩ => hn hm
  rw [faultCount, Finset.range_add_one, Finset.filter_insert, if_neg hf, faultCount]

theorem faultCount_succ_of_notMem (h : i < r.length) (hm : r[i] ∉ S i) :
    faultCount r S (i + 1) = faultCount r S i + 1 := by
  have hf : Fault r S i := ⟨h, hm⟩
  rw [faultCount, Finset.range_add_one, Finset.filter_insert, if_pos hf,
    Finset.card_insert_of_notMem (by simp), faultCount]

theorem faultCount_succ (h : i < r.length) :
    faultCount r S (i + 1) = faultCount r S i + if r[i] ∈ S i then 0 else 1 := by
  split
  case isTrue hm => exact faultCount_succ_of_mem h hm
  case isFalse hm => exact faultCount_succ_of_notMem h hm

theorem faultCount_congr {T : ℕ → Finset α} {m : ℕ} (h : ∀ i < m, S i = T i) :
    faultCount r S m = faultCount r T m := by
  unfold faultCount
  congr 1
  apply Finset.filter_congr
  intro i hi
  unfold Fault
  rw [h i (Finset.mem_range.mp hi)]

theorem faultCount_anti {T : ℕ → Finset α} {m : ℕ} (h : ∀ i < m, S i ⊆ T i) :
    faultCount r T m ≤ faultCount r S m := by
  apply Finset.card_le_card
  intro i hi
  obtain ⟨hm, hr, hf⟩ := Finset.mem_filter.mp hi
  exact Finset.mem_filter.mpr ⟨hm, hr, fun hs => hf (h i (Finset.mem_range.mp hm) hs)⟩

end FaultCount

namespace Lazy

variable {k : ℕ} {p : α} {S S' : Finset α}

theorem mem (h : Lazy k p S S') : p ∈ S' := by
  cases h with
  | hit hp => exact hp
  | load => exact Finset.mem_insert_self _ _
  | evict => exact Finset.mem_insert_self _ _

theorem subset (h : Lazy k p S S') : S' ⊆ insert p S := by
  cases h with
  | hit => exact Finset.subset_insert _ _
  | load => exact Finset.Subset.refl _
  | evict => exact Finset.insert_subset_insert _ (Finset.erase_subset _ _)

theorem card_le (h : Lazy k p S S') (hk : S.card ≤ k) : S'.card ≤ k := by
  cases h with
  | hit => exact hk
  | load hp hc => rwa [Finset.card_insert_of_notMem hp]
  | @evict x hp hc hx =>
    rw [Finset.card_insert_of_notMem (fun h => hp (Finset.mem_of_mem_erase h)),
      Finset.card_erase_of_mem hx]
    have := Finset.card_pos.mpr ⟨x, hx⟩
    omega

theorem eq_insert_of_card_lt (h : Lazy k p S S') (hk : S'.card < k) : S' = insert p S := by
  cases h with
  | hit hp => exact (Finset.insert_eq_self.mpr hp).symm
  | load => rfl
  | @evict x hp hc hx =>
    rw [Finset.card_insert_of_notMem (fun h => hp (Finset.mem_of_mem_erase h)),
      Finset.card_erase_of_mem hx] at hk
    have := Finset.card_pos.mpr ⟨x, hx⟩
    omega

end Lazy

section LazyRun

variable {k : ℕ} {r : List α} {S : ℕ → Finset α}

theorem lazy_card_le (h0 : S 0 = ∅)
    (hs : ∀ i (h : i < r.length), Lazy k r[i] (S i) (S (i + 1))) :
    ∀ i, i ≤ r.length → (S i).card ≤ k := by
  intro i
  induction i with
  | zero => intro _; simp [h0]
  | succ i ih => intro hi; exact (hs i hi).card_le (ih (by omega))

/-- A run of lazy steps from the empty set is a feasible schedule. -/
def Schedule.ofLazy (h0 : S 0 = ∅)
    (hs : ∀ i (h : i < r.length), Lazy k r[i] (S i) (S (i + 1))) : Schedule k r where
  resident := S
  start := h0
  served i h := (hs i h).mem
  demand i h := (hs i h).subset
  card_le i h := lazy_card_le h0 hs (i + 1) h

theorem toFinset_take_succ {i : ℕ} (h : i < r.length) :
    (r.take (i + 1)).toFinset = insert r[i] (r.take i).toFinset := by
  rw [List.take_succ_eq_append_getElem h, List.toFinset_append, Finset.union_comm]
  rfl

theorem lazy_subset (h0 : S 0 = ∅)
    (hs : ∀ i (h : i < r.length), Lazy k r[i] (S i) (S (i + 1))) :
    ∀ i, i ≤ r.length → S i ⊆ (r.take i).toFinset := by
  intro i
  induction i with
  | zero => intro _; simp [h0]
  | succ i ih =>
    intro hi
    rw [toFinset_take_succ hi]
    exact (hs i hi).subset.trans (Finset.insert_subset_insert _ (ih (by omega)))

theorem lazy_eq_of_card_lt (h0 : S 0 = ∅)
    (hs : ∀ i (h : i < r.length), Lazy k r[i] (S i) (S (i + 1))) :
    ∀ i, i ≤ r.length → (S i).card < k → S i = (r.take i).toFinset := by
  intro i
  induction i with
  | zero => intro _ _; simp [h0]
  | succ i ih =>
    intro hi hc
    have he := (hs i hi).eq_insert_of_card_lt hc
    have hlt : (S i).card < k := by
      rw [he] at hc
      exact lt_of_le_of_lt (Finset.card_le_card (Finset.subset_insert _ _)) hc
    rw [he, ih (by omega) hlt, toFinset_take_succ hi]

/-- A lazy policy holds as many pages as it can. -/
theorem lazy_card_eq (h0 : S 0 = ∅)
    (hs : ∀ i (h : i < r.length), Lazy k r[i] (S i) (S (i + 1))) {i : ℕ} (hi : i ≤ r.length) :
    (S i).card = min k (r.take i).toFinset.card := by
  have hk := lazy_card_le h0 hs i hi
  have hsub := Finset.card_le_card (lazy_subset h0 hs i hi)
  rcases Nat.lt_or_ge (S i).card k with hlt | hge
  · have he := congrArg Finset.card (lazy_eq_of_card_lt h0 hs i hi hlt)
    omega
  · omega

end LazyRun

end OperatingSystem.Paging
