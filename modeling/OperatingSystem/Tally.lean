import Mathlib.Data.Finset.Card
import Mathlib.Logic.Function.Basic

/-! # Counting references

Each member of a finite set holds at most one reference, to a slot of its own
choice. The references to a slot are counted; taking or dropping one changes the
count of its slot by one and no other.
-/

namespace OperatingSystem

variable {ι κ : Type*} [DecidableEq κ]

/-- The number of members of `s` that refer to slot `b`. -/
def tally (s : Finset ι) (f : ι → Option κ) (b : κ) : ℕ := (s.filter fun i => f i = some b).card

variable {s : Finset ι} {f g : ι → Option κ} {i : ι} {b c : κ}

theorem tally_congr (h : ∀ i ∈ s, f i = g i) : tally s f b = tally s g b := by
  unfold tally
  congr 1
  apply Finset.filter_congr
  intro i hi
  rw [h i hi]

theorem tally_pos_iff : 0 < tally s f b ↔ ∃ i ∈ s, f i = some b := by
  rw [tally, Finset.card_pos]
  constructor
  · rintro ⟨i, hi⟩
    exact ⟨i, Finset.mem_filter.mp hi⟩
  · rintro ⟨i, hi⟩
    exact ⟨i, Finset.mem_filter.mpr hi⟩

theorem tally_pos (hi : i ∈ s) (h : f i = some b) : 0 < tally s f b := tally_pos_iff.mpr ⟨i, hi, h⟩

variable [DecidableEq ι]

theorem tally_take (hi : i ∈ s) (h : f i = none) :
    tally s (Function.update f i (some b)) c = tally s f c + if c = b then 1 else 0 := by
  have hother : ∀ j, j ≠ i → Function.update f i (some b) j = f j := fun j hj => by simp [hj]
  split
  case isTrue he =>
    subst he
    have hset : (s.filter fun j => Function.update f i (some c) j = some c) =
        insert i (s.filter fun j => f j = some c) := by
      ext j
      rcases eq_or_ne j i with rfl | hj
      · simp [hi]
      · simp [hj]
    rw [tally, hset, Finset.card_insert_of_notMem (by simp [h]), tally]
  case isFalse hne =>
    unfold tally
    rw [Nat.add_zero]
    congr 1
    apply Finset.filter_congr
    intro j _
    rcases eq_or_ne j i with rfl | hj
    · simp [h, Ne.symm hne]
    · rw [hother j hj]

theorem tally_drop (hi : i ∈ s) (h : f i = some b) :
    tally s f c = tally s (Function.update f i none) c + if c = b then 1 else 0 := by
  have hback : Function.update (Function.update f i none) i (some b) = f := by
    rw [Function.update_idem, ← h, Function.update_eq_self]
  have := tally_take (f := Function.update f i none) (b := b) (c := c) hi (by simp)
  rwa [hback] at this

theorem tally_insert (h : f i = none) : tally (insert i s) f b = tally s f b := by
  rw [tally, Finset.filter_insert, if_neg (by simp [h]), tally]

end OperatingSystem
