import OperatingSystem.Paging.Schedule

/-! # Evicting the page used farthest in the future

A resident set is compared with another one by the number of its pages that are
due within every horizon. The farthest-next-use rule loses at most one page
against any feasible schedule for each fault that it avoids, so it attains the
minimum number of faults.
-/

namespace OperatingSystem.Paging

variable {α : Type*} [DecidableEq α]

/-- The pages whose next occurrence in the string `l` is at index at most `t`. -/
def due (l : List α) (t : ℕ) (S : Finset α) : Finset α := S.filter fun p => l.idxOf p ≤ t

/-- A lazy step whose victim occurs in the remaining string `l` after all other pages, if at all. -/
inductive Farthest (k : ℕ) (p : α) (l : List α) (S : Finset α) : Finset α → Prop where
  | hit : p ∈ S → Farthest k p l S S
  | load : p ∉ S → S.card < k → Farthest k p l S (insert p S)
  | evict {x : α} : p ∉ S → S.card = k → x ∈ S → (∀ y ∈ S, l.idxOf y ≤ l.idxOf x) →
      Farthest k p l S (insert p (S.erase x))

section Due

variable {l : List α} {t : ℕ} {p : α} {S T : Finset α}

theorem Farthest.toLazy {k : ℕ} (h : Farthest k p l S T) : Lazy k p S T := by
  cases h with
  | hit hp => exact .hit hp
  | load hp hc => exact .load hp hc
  | evict hp hc hx => exact .evict hp hc hx

theorem card_due_le (h : S ⊆ T) : (due l t S).card ≤ (due l t T).card :=
  Finset.card_le_card (Finset.filter_subset_filter _ h)

theorem card_due_cons_zero : (due (p :: l) 0 S).card = if p ∈ S then 1 else 0 := by
  have he : due (p :: l) 0 S = if p ∈ S then {p} else ∅ := by
    ext q
    by_cases hq : p = q
    · subst hq; by_cases hp : p ∈ S <;> simp [due, hp]
    · by_cases hp : p ∈ S <;> simp [due, hp, List.idxOf_cons_ne _ hq, Ne.symm hq]
  rw [he]
  split <;> simp

theorem mem_due_cons_succ {q : α} :
    q ∈ due (p :: l) (t + 1) S ↔ q = p ∧ p ∈ S ∨ q ∈ due l t (S.erase p) := by
  by_cases hq : p = q
  · subst hq
    simp [due]
  · simp [due, List.idxOf_cons_ne _ hq, Ne.symm hq]

theorem card_due_cons_succ :
    (due (p :: l) (t + 1) S).card = (due l t (S.erase p)).card + if p ∈ S then 1 else 0 := by
  have hn : p ∉ due l t (S.erase p) := by simp [due]
  by_cases hp : p ∈ S
  · have he : due (p :: l) (t + 1) S = insert p (due l t (S.erase p)) := by
      ext q
      simp [mem_due_cons_succ, hp]
    rw [he, Finset.card_insert_of_notMem hn, if_pos hp]
  · have he : due (p :: l) (t + 1) S = due l t (S.erase p) := by
      ext q
      simp [mem_due_cons_succ, hp]
    rw [he, if_neg hp, Nat.add_zero]

theorem card_due_of_mem (hp : p ∈ S) :
    (due l t S).card = (due l t (S.erase p)).card + if l.idxOf p ≤ t then 1 else 0 := by
  unfold due
  rw [Finset.filter_erase]
  split
  case isTrue ht =>
    rw [Finset.card_erase_add_one (Finset.mem_filter.mpr ⟨hp, ht⟩)]
  case isFalse ht =>
    have hn : p ∉ S.filter (fun q => l.idxOf q ≤ t) := fun h => ht (Finset.mem_filter.mp h).2
    rw [Finset.erase_eq_of_notMem hn, Nat.add_zero]

end Due

section Exchange

variable {k : ℕ} {p : α} {l : List α} {S S' T T' : Finset α} {a b : ℕ}

/-- What the exchange argument maintains between the farthest-next-use set `S` after `a` faults
and a competitor's set `T` after `b` faults. -/
structure Ahead (l : List α) (S T : Finset α) (a b : ℕ) : Prop where
  faults_le : a ≤ b
  due_le : ∀ t, (due l t T).card + a ≤ (due l t S).card + b

theorem Farthest.due_erase_le (h : Farthest k p l S S') (hT : T' ⊆ insert p T) (hp : p ∈ T')
    (hk : T'.card ≤ k) {t c : ℕ}
    (hd : (due l t (T.erase p)).card ≤ (due l t (S.erase p)).card + c) :
    (due l t (T'.erase p)).card ≤ (due l t (S'.erase p)).card + c := by
  have hsub : T'.erase p ⊆ T.erase p := by
    intro q hq
    obtain ⟨hne, hq⟩ := Finset.mem_erase.mp hq
    exact Finset.mem_erase.mpr ⟨hne, (Finset.mem_insert.mp (hT hq)).resolve_left hne⟩
  have hle := (card_due_le (l := l) (t := t) hsub).trans hd
  cases h with
  | hit => exact hle
  | load => rwa [Finset.erase_insert_eq_erase]
  | @evict x hpS hc hx hfar =>
    rw [Finset.erase_insert_eq_erase, Finset.erase_eq_of_notMem
      (fun h => hpS (Finset.mem_of_mem_erase h))]
    rw [Finset.erase_eq_of_notMem hpS, card_due_of_mem hx] at hle
    split at hle
    case isFalse => omega
    case isTrue ht =>
      -- beyond the victim's next use every page of `S` is due, which fills the horizon
      have hall : due l t (S.erase x) = S.erase x := Finset.filter_true_of_mem fun y hy =>
        (hfar y (Finset.mem_of_mem_erase hy)).trans ht
      have hcard : (due l t (T'.erase p)).card ≤ k - 1 := by
        calc (due l t (T'.erase p)).card ≤ (T'.erase p).card :=
              Finset.card_le_card (Finset.filter_subset _ _)
          _ = T'.card - 1 := Finset.card_erase_of_mem hp
          _ ≤ k - 1 := by omega
      rw [hall, Finset.card_erase_of_mem hx, hc]
      omega

/-- One reference, served by the rule and by a feasible competitor, keeps the rule ahead. -/
theorem Ahead.step (h : Ahead (p :: l) S T a b) (hS : Farthest k p l S S')
    (hT : T' ⊆ insert p T) (hp : p ∈ T') (hk : T'.card ≤ k) :
    Ahead l S' T' (a + if p ∈ S then 0 else 1) (b + if p ∈ T then 0 else 1) := by
  have hab : a + (if p ∈ S then 0 else 1) ≤ b + (if p ∈ T then 0 else 1) := by
    have h0 := h.due_le 0
    have hab := h.faults_le
    rw [card_due_cons_zero, card_due_cons_zero] at h0
    by_cases hpS : p ∈ S <;> by_cases hpT : p ∈ T <;>
      simp only [hpS, hpT, if_true, if_false] at * <;> omega
  refine ⟨hab, fun t => ?_⟩
  obtain ⟨c, hc⟩ := Nat.exists_eq_add_of_le hab
  have hd : (due l t (T.erase p)).card ≤ (due l t (S.erase p)).card + c := by
    have ht := h.due_le (t + 1)
    rw [card_due_cons_succ, card_due_cons_succ] at ht
    by_cases hpS : p ∈ S <;> by_cases hpT : p ∈ T <;>
      simp only [hpS, hpT, if_true, if_false] at * <;> omega
  have hle := hS.due_erase_le hT hp hk hd
  rw [card_due_of_mem hp, card_due_of_mem hS.toLazy.mem]
  omega

end Exchange

section Optimal

variable {k : ℕ} {r : List α} {S : ℕ → Finset α}

theorem ahead_of_farthest (h0 : S 0 = ∅)
    (hs : ∀ i (h : i < r.length), Farthest k r[i] (r.drop (i + 1)) (S i) (S (i + 1)))
    (T : Schedule k r) : ∀ i, i ≤ r.length →
      Ahead (r.drop i) (S i) (T.resident i) (faultCount r S i) (faultCount r T.resident i) := by
  intro i
  induction i with
  | zero => intro _; constructor <;> simp [h0, T.start, due]
  | succ i ih =>
    intro hi
    have ha := ih (by omega)
    rw [List.drop_eq_getElem_cons hi] at ha
    rw [faultCount_succ hi, faultCount_succ hi]
    exact ha.step (hs i hi) (T.demand i hi) (T.served i hi) (T.card_le i hi)

theorem isLeast_faults_of_farthest (h0 : S 0 = ∅)
    (hs : ∀ i (h : i < r.length), Farthest k r[i] (r.drop (i + 1)) (S i) (S (i + 1))) :
    IsLeast (Set.range (Schedule.faults (k := k) (r := r))) (faultCount r S r.length) := by
  constructor
  · exact ⟨.ofLazy h0 fun i h => (hs i h).toLazy, rfl⟩
  · rintro _ ⟨T, rfl⟩
    exact (ahead_of_farthest h0 hs T r.length le_rfl).faults_le

end Optimal

end OperatingSystem.Paging
