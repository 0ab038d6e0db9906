import Mathlib.Data.List.Nodup
import Mathlib.Data.List.Pairwise
import Mathlib.Order.Lattice

/-! # Bubble sort

Two nested loops over the indices of a list, with a Boolean comparison. The result is
determined by a key in a linear order that the comparison agrees with on the entries
of the list.
-/

namespace OperatingSystem.BubbleSort

variable {α κ : Type*} (gt : α → α → Bool)

def exchange (l : List α) (j : ℕ) : List α :=
  match l[j]?, l[j + 1]? with
  | some a, some b => if gt a b then (l.set j b).set (j + 1) a else l
  | _, _ => l

/-- The inner loop over the indices below `j`. -/
def pass (l : List α) : ℕ → List α
  | 0 => l
  | j + 1 => exchange gt (pass l j) j

/-- The outer loop from index `i` down to 1. -/
def passes (l : List α) : ℕ → List α
  | 0 => l
  | i + 1 => passes (pass gt l (i + 1)) i

def sort (l : List α) : List α := passes gt l (l.length - 1)

section Permutation

theorem exchange_append (pre post : List α) (a b : α) :
    exchange gt (pre ++ a :: b :: post) pre.length =
      pre ++ if gt a b then b :: a :: post else a :: b :: post := by
  have ha : (pre ++ a :: b :: post)[pre.length]? = some a := by simp
  have hb : (pre ++ a :: b :: post)[pre.length + 1]? = some b := by
    rw [List.getElem?_append_right (by omega), Nat.add_sub_cancel_left]
    rfl
  rw [exchange, ha, hb]
  dsimp only
  split
  case isTrue =>
    rw [List.set_append_right _ _ (Nat.le_refl _),
      List.set_append_right _ _ (by omega), Nat.sub_self, Nat.add_sub_cancel_left]
    rfl
  case isFalse => rfl

theorem eq_take_cons_cons {l : List α} {j : ℕ} {a b : α} (ha : l[j]? = some a)
    (hb : l[j + 1]? = some b) : l = l.take j ++ a :: b :: l.drop (j + 2) := by
  obtain ⟨hj, rfl⟩ := List.getElem?_eq_some_iff.mp ha
  obtain ⟨hj', rfl⟩ := List.getElem?_eq_some_iff.mp hb
  rw [← List.drop_eq_getElem_cons hj', ← List.drop_eq_getElem_cons hj, List.take_append_drop]

theorem exchange_perm (l : List α) (j : ℕ) : (exchange gt l j).Perm l := by
  rcases ha : l[j]? with - | a
  · simp [exchange, ha]
  rcases hb : l[j + 1]? with - | b
  · simp [exchange, ha, hb]
  obtain ⟨hj, -⟩ := List.getElem?_eq_some_iff.mp ha
  have hlen : (l.take j).length = j := List.length_take_of_le (Nat.le_of_lt hj)
  have hex := exchange_append gt (l.take j) (l.drop (j + 2)) a b
  rw [hlen, ← eq_take_cons_cons ha hb] at hex
  rw [hex]
  conv_rhs => rw [eq_take_cons_cons ha hb]
  apply List.Perm.append_left
  split
  case isTrue => exact List.Perm.swap a b _
  case isFalse => exact List.Perm.refl _

theorem pass_perm (l : List α) (j : ℕ) : (pass gt l j).Perm l := by
  induction j with
  | zero => exact List.Perm.refl l
  | succ j ih => exact (exchange_perm gt _ j).trans ih

theorem passes_perm (l : List α) (i : ℕ) : (passes gt l i).Perm l := by
  induction i generalizing l with
  | zero => exact List.Perm.refl l
  | succ i ih => exact (ih _).trans (pass_perm gt l (i + 1))

theorem sort_perm (l : List α) : (sort gt l).Perm l := passes_perm gt l _

end Permutation

section Order

variable [LinearOrder κ] {gt} {key : α → κ} {l l' r : List α} {i j : ℕ}

/-- The comparison agrees with the keys of the entries, which are distinct. -/
structure Compares (gt : α → α → Bool) (key : α → κ) (l : List α) : Prop where
  nodup : (l.map key).Nodup
  gt_iff : ∀ a ∈ l, ∀ b ∈ l, key a ≠ key b → (gt a b = true ↔ key b < key a)

theorem Compares.perm (h : Compares gt key l) (hl : l'.Perm l) : Compares gt key l' where
  nodup := (hl.map key).nodup_iff.mpr h.nodup
  gt_iff a ha b hb := h.gt_iff a (hl.mem_iff.mp ha) b (hl.mem_iff.mp hb)

/-- The entry that the inner loop has carried to index `j` exceeds those before it. -/
def Carried (key : α → κ) (l : List α) (j : ℕ) (r : List α) : Prop :=
  ∃ pre m, r = pre ++ m :: l.drop (j + 1) ∧ pre.length = j ∧ ∀ x ∈ pre, key x < key m

theorem Carried.exchange (h : Compares gt key r) (hc : Carried key l j r)
    (hj : j + 1 < l.length) : Carried key l (j + 1) (exchange gt r j) := by
  obtain ⟨pre, m, rfl, rfl, hpre⟩ := hc
  rw [List.drop_eq_getElem_cons hj] at h ⊢
  generalize l[pre.length + 1] = b at h ⊢
  rw [exchange_append]
  have hne : key m ≠ key b := by
    have hn := h.nodup
    rw [List.map_append, List.nodup_append, List.map_cons, List.map_cons, List.nodup_cons] at hn
    intro heq
    exact hn.2.1.1 (heq ▸ List.mem_cons_self)
  have hgt := h.gt_iff m (by simp) b (by simp) hne
  split
  case isTrue hm =>
    refine ⟨pre ++ [b], m, by simp, by simp, ?_⟩
    intro x hx
    rcases List.mem_append.mp hx with hx | hx
    · exact hpre x hx
    · rw [List.mem_singleton.mp hx]
      exact hgt.mp hm
  case isFalse hm =>
    have hmb : key m < key b := lt_of_le_of_ne (not_lt.mp fun hlt => hm (hgt.mpr hlt)) hne
    refine ⟨pre ++ [m], b, by simp, by simp, ?_⟩
    intro x hx
    rcases List.mem_append.mp hx with hx | hx
    · exact (hpre x hx).trans hmb
    · rwa [List.mem_singleton.mp hx]

theorem pass_carried (h : Compares gt key l) (hj : j < l.length) :
    Carried key l j (pass gt l j) := by
  induction j with
  | zero => exact ⟨[], l[0], List.drop_eq_getElem_cons hj, rfl, by simp⟩
  | succ j ih =>
    exact (ih (by omega)).exchange (h.perm (pass_perm gt l j)) hj

/-- The entries from index `i` on are in order and exceed those before them. -/
def Settled (key : α → κ) (i : ℕ) (l : List α) : Prop :=
  (l.drop i).Pairwise (key · < key ·) ∧ ∀ x ∈ l.take i, ∀ y ∈ l.drop i, key x < key y

theorem Settled.pass (h : Compares gt key l) (hs : Settled key (i + 1) l) (hi : i < l.length) :
    Settled key i (pass gt l i) := by
  obtain ⟨pre, m, hr, hlen, hpre⟩ := pass_carried h hi
  have hperm : (pre ++ [m]).Perm (l.take (i + 1)) := by
    have hp := pass_perm gt l i
    rw [hr, List.append_cons] at hp
    conv_rhs at hp => rw [← List.take_append_drop (i + 1) l]
    exact (List.perm_append_right_iff _).mp hp
  have hm : m ∈ l.take (i + 1) := hperm.mem_iff.mp (by simp)
  rw [Settled, hr, List.drop_left' hlen, List.take_left' hlen]
  constructor
  · exact List.pairwise_cons.mpr ⟨hs.2 m hm, hs.1⟩
  · intro x hx y hy
    rcases List.mem_cons.mp hy with rfl | hy
    · exact hpre x hx
    · exact hs.2 x (hperm.mem_iff.mp (by simp [hx])) y hy

theorem passes_settled (h : Compares gt key l) (hs : Settled key (i + 1) l) (hi : i < l.length) :
    Settled key 1 (passes gt l i) := by
  induction i generalizing l with
  | zero => exact hs
  | succ i ih =>
    have hp := pass_perm gt l (i + 1)
    apply ih (h.perm hp) (hs.pass h hi)
    rw [hp.length_eq]
    omega

theorem sort_pairwise (h : Compares gt key l) : (sort gt l).Pairwise (key · < key ·) := by
  rcases Nat.eq_zero_or_pos l.length with hl | hl
  · rw [List.length_eq_zero_iff] at hl
    simp [hl, sort, passes]
  have hstart : Settled key (l.length - 1 + 1) l := by
    rw [Nat.sub_add_cancel hl, Settled, List.drop_length]
    simp
  obtain ⟨hs, hlt⟩ := passes_settled h hstart (by omega)
  have hsplit := List.take_append_drop 1 (sort gt l)
  rw [← hsplit, List.pairwise_append]
  refine ⟨?_, hs, hlt⟩
  rcases sort gt l with - | ⟨a, r⟩
  · exact List.Pairwise.nil
  · exact List.pairwise_singleton _ a

/-- The result does not depend on the initial order. -/
theorem sort_eq_of_perm (h : Compares gt key l) (hl : l'.Perm l) : sort gt l' = sort gt l := by
  have hp : (sort gt l').Perm (sort gt l) :=
    ((sort_perm gt l').trans hl).trans (sort_perm gt l).symm
  apply hp.eq_of_pairwise _ (sort_pairwise (h.perm hl)) (sort_pairwise h)
  intro a b _ _ hab hba
  exact absurd hab hba.asymm

end Order

end OperatingSystem.BubbleSort
