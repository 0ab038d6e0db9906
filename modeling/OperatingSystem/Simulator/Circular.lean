import OperatingSystem.Simulator.Table

/-! # The circular pointer

FIFO and Second-Chance move a pointer past the frame they overwrite and wrap it
in a separate test. Reading the occupied frames circularly from the pointer does
not depend on whether the pointer has been wrapped yet.
-/

namespace OperatingSystem.Simulator

section Rotate

variable {α : Type*} {a b l : List α} {x : α} {j : ℕ}

theorem split_at (hj : j < l.length) : ∃ a x b, l = a ++ x :: b ∧ a.length = j :=
  ⟨l.take j, l[j], l.drop (j + 1), by simp, by simp; omega⟩

theorem rotate_middle : (a ++ x :: b).rotate a.length = x :: b ++ a :=
  List.rotate_append_length_eq _ _

theorem rotate_middle_succ : (a ++ x :: b).rotate (a.length + 1) = b ++ a ++ [x] := by
  have h := List.rotate_append_length_eq (a ++ [x]) b
  simpa using h

end Rotate

/-- The occupied frames read circularly from the pointer. -/
def Frames.circular (s : Frames) : List ℤ := (s.pageFrame.rotate s.victim).filter fun p => 0 ≤ p

variable {n : ℕ} {page : ℤ} {s : Frames}

theorem circular_perm (s : Frames) : s.circular.Perm s.pages :=
  (List.rotate_perm _ _).filter _

theorem wrap_eq_self (h : s.victim < s.pageFrame.length) : wrap s = s := by
  rw [wrap, if_neg (by omega)]

theorem wrap_circular (s : Frames) : (wrap s).circular = s.circular := by
  unfold wrap
  split
  case isTrue h => simp [Frames.circular, h]
  case isFalse => rfl

theorem WellFormed.circular_eq_pages (h : WellFormed n s) (hl : s.pages.length < n) :
    s.circular = s.pages := by
  rw [Frames.circular, h.victim_zero hl, List.rotate_zero, Frames.pages]

theorem WellFormed.circular_eq_rotate (h : WellFormed n s) (hl : s.pages.length = n) :
    s.circular = s.pages.rotate s.victim := by
  rw [Frames.circular, h.table.eq_of_full hl, List.filter_eq_self]
  intro p hp
  simpa using h.table.nonneg p (List.mem_rotate.mp hp)

theorem Step.advance {V : ℕ → Prop} (h : WellFormed n s) (h0 : 0 ≤ page) (hp : page ∉ s.pages)
    (hl : s.pages.length = n) {j : ℕ} (hj : j < n) (hV : V j) {bits : List ℤ}
    (hb : bits.length = n) (hbit : ∀ b ∈ bits, b = 0 ∨ b = 1) :
    Step n page V s (wrap { placed page s j with referenceBit := bits, victim := j + 1 }) := by
  have hstep := Step.of_evict h h0 hp hl hj hV
  have hlp : (placed page s j).pages.length = n := by
    rw [pages_evict h h0 hp hl, List.length_set, hl]
  unfold wrap
  split
  case isTrue => exact hstep.update hb hbit (by omega) (by omega)
  case isFalse hne =>
    refine hstep.update hb hbit ?_ (by omega)
    have hf := h.table.length_eq
    simp only [placed, List.length_set] at hne
    omega

end OperatingSystem.Simulator
