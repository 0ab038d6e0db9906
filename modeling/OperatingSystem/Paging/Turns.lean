import Mathlib.Data.List.Perm.Basic
import OperatingSystem.Paging.SecondChance
import OperatingSystem.Paging.Weight

/-! # The second-chance queue against lazy policies

A page at position `j` of a second-chance queue of `k` pages survives the next
`j` faults, and a whole round more when its bit is set. This number of turns is
a weight of at most `2k - 1`, so the queue faults at most `2k - 1` times as often
as any lazy policy with `k` frames.
-/

namespace OperatingSystem.Paging

variable {α : Type*} {k : ℕ} {p x : α} {q : List (α × Bool)}

@[simp] theorem map_fst_map_clear (q : List (α × Bool)) :
    (q.map clear).map Prod.fst = q.map Prod.fst := by
  rw [List.map_map]
  rfl

theorem notMem_map_clear (x : α) (q : List (α × Bool)) : (x, true) ∉ q.map clear := by
  rw [List.mem_map]
  rintro ⟨c, _, h⟩
  exact absurd (congrArg Prod.snd h) (by simp [clear])

theorem setBits_cases (q : List (α × Bool)) :
    (∀ c ∈ q, c.2 = true) ∨ ∃ a x b, q = a ++ (x, false) :: b ∧ ∀ c ∈ a, c.2 = true := by
  induction q with
  | nil => exact Or.inl (by simp)
  | cons c q ih =>
    obtain ⟨x, _ | _⟩ := c
    · exact Or.inr ⟨[], x, q, rfl, by simp⟩
    · rcases ih with hset | ⟨a, y, b, rfl, ha⟩
      · exact Or.inl (List.forall_mem_cons.mpr ⟨rfl, hset⟩)
      · exact Or.inr ⟨(x, true) :: a, y, b, rfl, List.forall_mem_cons.mpr ⟨rfl, ha⟩⟩

/-- A fault on a full queue evicts the page with the first clear bit, or with every bit set the
page at the head. -/
theorem chance_cases (hq : q ≠ []) :
    (∃ a x b, q = a ++ (x, false) :: b ∧ (∀ c ∈ a, c.2 = true) ∧ chance q = b ++ a.map clear) ∨
      ∃ x b, q = (x, true) :: b ∧ (∀ c ∈ b, c.2 = true) ∧ chance q = b.map clear := by
  rcases setBits_cases q with hset | ⟨a, x, b, rfl, ha⟩
  · obtain ⟨⟨x, _ | _⟩, b, rfl⟩ := List.exists_cons_of_ne_nil hq
    · exact absurd (hset _ List.mem_cons_self) (by simp)
    · have hb := fun c hc => hset c (List.mem_cons_of_mem _ hc)
      exact Or.inr ⟨x, b, rfl, hb, chance_cons hb⟩
  · exact Or.inl ⟨a, x, b, rfl, ha, chance_append ha⟩

theorem chance_perm (hq : q ≠ []) : ∃ x, (q.map Prod.fst).Perm (x :: (chance q).map Prod.fst) := by
  rcases chance_cases hq with ⟨a, x, b, rfl, _, he⟩ | ⟨x, b, rfl, _, he⟩
  · refine ⟨x, ?_⟩
    rw [he, List.map_append, List.map_append, map_fst_map_clear, List.map_cons]
    exact List.perm_middle.trans (List.perm_append_comm.cons x)
  · refine ⟨x, ?_⟩
    rw [he, map_fst_map_clear, List.map_cons]

variable [DecidableEq α]

theorem secondChance_hit_fst (hp : p ∈ q.map Prod.fst) :
    (secondChance k p q).map Prod.fst = q.map Prod.fst := by
  rw [secondChance, if_pos hp, List.map_map]
  apply List.map_congr_left
  intro c _
  simp only [Function.comp]
  split <;> rfl

theorem secondChance_load_fst (hp : p ∉ q.map Prod.fst) (hl : q.length < k) :
    (secondChance k p q).map Prod.fst = q.map Prod.fst ++ [p] := by
  rw [secondChance, if_neg hp, if_pos hl, List.map_append]
  rfl

theorem secondChance_evict_fst (hp : p ∉ q.map Prod.fst) (hl : q.length = k) :
    (secondChance k p q).map Prod.fst = (chance q).map Prod.fst ++ [p] := by
  rw [secondChance, if_neg hp, if_neg (by omega), List.map_append]
  rfl

structure Bounded (k : ℕ) (q : List (α × Bool)) : Prop where
  nodup : (q.map Prod.fst).Nodup
  length_le : q.length ≤ k

def keys (q : List (α × Bool)) : Finset α := (q.map Prod.fst).toFinset

theorem mem_keys : p ∈ keys q ↔ p ∈ q.map Prod.fst := List.mem_toFinset

theorem Bounded.card_keys (h : Bounded k q) : (keys q).card = q.length := by
  rw [keys, List.toFinset_card_of_nodup h.nodup, List.length_map]

theorem Bounded.secondChance (hk : 1 ≤ k) (h : Bounded k q) (p : α) :
    Bounded k (secondChance k p q) ∧ Lazy k p (keys q) (keys (Paging.secondChance k p q)) := by
  by_cases hp : p ∈ q.map Prod.fst
  · have he := secondChance_hit_fst (k := k) hp
    have hkeys : keys (Paging.secondChance k p q) = keys q := congrArg List.toFinset he
    refine ⟨⟨he ▸ h.nodup, ?_⟩, ?_⟩
    · rw [← List.length_map Prod.fst, he, List.length_map]
      exact h.length_le
    · rw [hkeys]
      exact .hit (mem_keys.mpr hp)
  rcases h.length_le.lt_or_eq with hl | hl
  · have he := secondChance_load_fst hp hl
    have hkeys : keys (Paging.secondChance k p q) = insert p (keys q) := by
      rw [keys, he]
      ext a
      simp [keys]
    refine ⟨⟨?_, ?_⟩, ?_⟩
    · rw [he, ← List.concat_eq_append]
      exact h.nodup.concat hp
    · rw [← List.length_map Prod.fst, he]
      simpa using Nat.succ_le_of_lt hl
    · rw [hkeys]
      exact .load (fun hm => hp (mem_keys.mp hm)) (h.card_keys ▸ hl)
  · obtain ⟨x, hperm⟩ := chance_perm (q := q) (List.ne_nil_of_length_pos (by omega))
    have he := secondChance_evict_fst hp hl
    have hnodup := hperm.nodup_iff.mp h.nodup
    have hp' : p ∉ (chance q).map Prod.fst :=
      fun hm => hp (hperm.mem_iff.mpr (List.mem_cons_of_mem _ hm))
    have hx : (keys q).erase x = ((chance q).map Prod.fst).toFinset := by
      have hx : x ∉ ((chance q).map Prod.fst).toFinset := by
        simpa only [List.mem_toFinset] using (List.nodup_cons.mp hnodup).1
      rw [keys, List.toFinset_eq_of_perm _ _ hperm, List.toFinset_cons, Finset.erase_insert hx]
    have hkeys : keys (Paging.secondChance k p q) = insert p ((keys q).erase x) := by
      rw [hx, keys, he]
      ext a
      simp
    refine ⟨⟨?_, ?_⟩, ?_⟩
    · rw [he, ← List.concat_eq_append]
      exact (List.nodup_cons.mp hnodup).2.concat hp'
    · have hlen := hperm.length_eq
      rw [← List.length_map Prod.fst, he]
      simp only [List.length_map, List.length_cons, List.length_append, List.length_nil] at hlen ⊢
      omega
    · rw [hkeys]
      exact .evict (fun hm => hp (mem_keys.mp hm)) (h.card_keys.trans hl)
        (mem_keys.mpr (hperm.mem_iff.mpr List.mem_cons_self))

/-- The faults that a page of the queue survives, when there are `k` pages. -/
def turns (k : ℕ) (q : List (α × Bool)) (a : α) : ℕ :=
  (q.map Prod.fst).idxOf a + 1 + if (a, true) ∈ q then k - 1 else 0

section Turns

variable {a : α} {b c : List (α × Bool)}

theorem turns_le (hl : q.length ≤ k) (ha : a ∈ q.map Prod.fst) : turns k q a ≤ 2 * k - 1 := by
  have hlt := List.idxOf_lt_length_of_mem ha
  rw [List.length_map] at hlt
  unfold turns
  split <;> omega

theorem turns_append_left (ha : a ∈ b.map Prod.fst) (hc : a ∉ c.map Prod.fst) :
    turns k (b ++ c) a = turns k b a := by
  have hmem : (a, true) ∈ b ++ c ↔ (a, true) ∈ b := by
    rw [List.mem_append]
    exact or_iff_left fun h => hc (List.mem_map_of_mem h)
  simp only [turns, List.map_append, List.idxOf_append_of_mem ha, hmem]

theorem turns_append_right (ha : a ∉ b.map Prod.fst) :
    turns k (b ++ c) a = b.length + turns k c a := by
  have hmem : (a, true) ∈ b ++ c ↔ (a, true) ∈ c := by
    rw [List.mem_append]
    exact or_iff_right fun h => ha (List.mem_map_of_mem h)
  simp only [turns, List.map_append, List.idxOf_append_of_notMem ha, hmem, List.length_map]
  ring

theorem turns_cons (ha : a ≠ x) (v : Bool) : turns k ((x, v) :: c) a = turns k c a + 1 := by
  have h := turns_append_right (k := k) (b := [(x, v)]) (c := c) (a := a) (by simpa using ha)
  rw [List.singleton_append] at h
  rw [h, List.length_singleton, Nat.add_comm]

theorem turns_of_set (hq : ∀ c ∈ q, c.2 = true) (ha : a ∈ q.map Prod.fst) :
    turns k q a = turns k (q.map clear) a + (k - 1) := by
  obtain ⟨⟨y, v⟩, hc, rfl⟩ := List.mem_map.mp ha
  have hmem : (y, true) ∈ q := by
    have hv := hq _ hc
    simp only at hv
    exact hv ▸ hc
  simp only [turns, if_pos hmem, if_neg (notMem_map_clear _ _), map_fst_map_clear]

end Turns

theorem turns_pos : 1 ≤ turns k q x := by
  unfold turns
  omega

theorem turns_hit {a : α} (hp : p ∈ q.map Prod.fst) (hne : a ≠ p) :
    turns k (secondChance k p q) a = turns k q a := by
  have hmem : (a, true) ∈ secondChance k p q ↔ (a, true) ∈ q := by
    rw [secondChance, if_pos hp, List.mem_map]
    constructor
    · rintro ⟨c, hc, he⟩
      split at he
      case isTrue h => exact absurd (congrArg Prod.fst he) (fun h' => hne (h'.symm.trans h))
      case isFalse => exact he ▸ hc
    · intro ha
      exact ⟨(a, true), ha, if_neg hne⟩
  simp only [turns, secondChance_hit_fst hp, hmem]

/-- A fault on a full queue takes a turn from every page that it leaves. -/
theorem turns_evict {a : α} (h : Bounded k q) (hk : 1 ≤ k) (hl : q.length = k)
    (hp : p ∉ q.map Prod.fst) (ha : a ∈ q.map Prod.fst) :
    turns k (chance q ++ [(p, false)]) a + 1 ≤ turns k q a ∨ a ∉ (chance q).map Prod.fst := by
  have hnodup := h.nodup
  have hap : a ∉ [(p, false)].map Prod.fst := by
    rintro hm
    obtain rfl : a = p := by simpa using hm
    exact hp ha
  rcases chance_cases (q := q) (List.ne_nil_of_length_pos (by omega)) with
    ⟨b, x, c, rfl, hb, he⟩ | ⟨x, c, rfl, hc, he⟩
  · rw [he]
    simp only [List.map_append, List.map_cons, List.mem_append, List.mem_cons, List.length_append,
      List.length_cons] at ha hl hnodup
    have hdisj := List.disjoint_of_nodup_append hnodup
    have hx := List.nodup_cons.mp (List.nodup_append.mp hnodup).2.1
    rcases ha with ha | rfl | ha
    · -- a page that is passed over gives up its bit for a place at the end
      left
      have hac : a ∉ c.map Prod.fst := fun hm => hdisj ha (List.mem_cons_of_mem _ hm)
      have hac' : a ∉ ((x, false) :: c).map Prod.fst := fun hm => hdisj ha hm
      have ha' : a ∈ (b.map clear).map Prod.fst := by rwa [map_fst_map_clear]
      have hpos : 0 < b.length := by
        rw [← List.length_map Prod.fst]
        exact List.length_pos_of_mem ha
      rw [List.append_assoc, turns_append_right hac, turns_append_left ha' hap,
        turns_append_left ha hac', turns_of_set hb ha]
      omega
    · right
      rw [List.map_append, map_fst_map_clear, List.mem_append, not_or]
      exact ⟨hx.1, fun hm => hdisj hm List.mem_cons_self⟩
    · left
      have hab : a ∉ b.map Prod.fst := fun hm => hdisj hm (List.mem_cons_of_mem _ ha)
      have hax : a ≠ x := fun hax => hx.1 (hax ▸ ha)
      have hab' : a ∉ (b.map clear ++ [(p, false)]).map Prod.fst := by
        rw [List.map_append, map_fst_map_clear, List.mem_append, not_or]
        exact ⟨hab, hap⟩
      rw [List.append_assoc, turns_append_left ha hab', turns_append_right hab, turns_cons hax]
      omega
  · rw [he]
    simp only [List.map_cons, List.mem_cons] at ha hnodup
    have hx := List.nodup_cons.mp hnodup
    rcases ha with rfl | ha
    · right
      rw [map_fst_map_clear]
      exact hx.1
    · left
      have hax : a ≠ x := fun hax => hx.1 (hax ▸ ha)
      have ha' : a ∈ (c.map clear).map Prod.fst := by rwa [map_fst_map_clear]
      rw [turns_append_left ha' hap, turns_cons hax, turns_of_set hc ha]
      omega

theorem Bounded.weighing (hk : 1 ≤ k) (h : Bounded k q) (p : α) :
    Weighing k (2 * k - 1) p (keys q) (keys (Paging.secondChance k p q)) (turns k q)
      (turns k (Paging.secondChance k p q)) := by
  have hevict : p ∉ keys q → (keys q).card = k → ∀ a ∈ keys q,
      turns k (Paging.secondChance k p q) a + 1 ≤ turns k q a ∨
        a ∉ keys (Paging.secondChance k p q) := by
    intro hp hcard a ha
    rw [mem_keys] at hp ha
    rw [h.card_keys] at hcard
    have hne : a ≠ p := fun he => hp (he ▸ ha)
    rw [mem_keys, secondChance_evict_fst hp hcard, Paging.secondChance, if_neg hp,
      if_neg (by omega)]
    simpa [hne] using turns_evict h hk hcard hp ha
  refine ⟨fun a ha => turns_le h.length_le (mem_keys.mp ha), fun a ha ha' hne => ?_,
    fun hp hcard a ha => (hevict hp hcard a ha).imp_right fun hout => ⟨hout, turns_pos⟩⟩
  by_cases hp : p ∈ q.map Prod.fst
  · exact (turns_hit hp hne).le
  rcases h.length_le.lt_or_eq with hl | hl
  · rw [Paging.secondChance, if_neg hp, if_pos hl,
      turns_append_left (mem_keys.mp ha) (by simpa using hne)]
  · have hcard : (keys q).card = k := h.card_keys.trans hl
    rcases hevict (fun hm => hp (mem_keys.mp hm)) hcard a ha with hlt | hout
    · omega
    · exact absurd ha' hout

section Run

variable {r : List α} {S : ℕ → Finset α} {Q : ℕ → List (α × Bool)}

theorem bounded_run (hk : 1 ≤ k) (h0 : Q 0 = [])
    (hQ : ∀ i (h : i < r.length), Q (i + 1) = secondChance k r[i] (Q i)) :
    ∀ i, i ≤ r.length → Bounded k (Q i) := by
  intro i
  induction i with
  | zero => intro _; rw [h0]; exact ⟨List.nodup_nil, Nat.zero_le _⟩
  | succ i ih =>
    intro hi
    rw [hQ i hi]
    exact ((ih (by omega)).secondChance hk _).1

theorem faultCount_secondChance_le (hk : 1 ≤ k) (h0 : Q 0 = [])
    (hQ : ∀ i (h : i < r.length), Q (i + 1) = secondChance k r[i] (Q i)) (hS0 : S 0 = ∅)
    (hS : ∀ i (h : i < r.length), Lazy k r[i] (S i) (S (i + 1))) :
    faultCount r (fun i => keys (Q i)) r.length ≤ (2 * k - 1) * faultCount r S r.length := by
  have hB := bounded_run hk h0 hQ
  refine faultCount_le_of_weighing (W := fun i => turns k (Q i)) (by omega) (by simp [h0, keys])
    (fun i hi => ?_) hS0 hS fun i hi => ?_
  · rw [hQ i hi]
    exact ((hB i hi.le).secondChance hk _).2
  · rw [hQ i hi]
    exact (hB i hi.le).weighing hk _

end Run

end OperatingSystem.Paging
