import Mathlib.Data.Int.Order.Basic
import Mathlib.Data.List.Basic
import Mathlib.Order.Lattice

/-! # Scanning for a smallest key

A loop over a list that keeps the index of the first element with the smallest key
below a given one. Both history-based policies search for their victim in this way.
-/

namespace OperatingSystem.Paging

variable {α κ : Type*} [LinearOrder κ]

/-- The scan from index `j` on, with the smallest key and its index so far. -/
def scan (key : α → κ) : List α → ℕ → κ → ℤ → ℤ
  | [], _, _, victim => victim
  | p :: f, j, best, victim =>
    if key p < best then scan key f (j + 1) (key p) j else scan key f (j + 1) best victim

/-- The scan keeps its index or ends at an element with the smallest key. -/
theorem scan_cases (key : α → κ) (f : List α) (j : ℕ) (best : κ) (victim : ℤ) :
    (scan key f j best victim = victim ∧ ∀ q ∈ f, best ≤ key q) ∨
    ∃ a p b, f = a ++ p :: b ∧ scan key f j best victim = (j + a.length : ℕ) ∧
      key p < best ∧ ∀ q ∈ f, key p ≤ key q := by
  induction f generalizing j best victim with
  | nil => exact Or.inl ⟨rfl, by simp⟩
  | cons p f ih =>
    rw [scan]
    split
    case isTrue hlt =>
      rcases ih (j + 1) (key p) j with ⟨he, hle⟩ | ⟨a, x, b, rfl, he, hx, hle⟩
      · exact Or.inr ⟨[], p, f, rfl, he, hlt, List.forall_mem_cons.mpr ⟨le_rfl, hle⟩⟩
      · refine Or.inr ⟨p :: a, x, b, rfl, ?_, lt_trans hx hlt,
          List.forall_mem_cons.mpr ⟨le_of_lt hx, hle⟩⟩
        rw [he, List.length_cons, Nat.add_right_comm, Nat.add_assoc]
    case isFalse hge =>
      rcases ih (j + 1) best victim with ⟨he, hle⟩ | ⟨a, x, b, rfl, he, hx, hle⟩
      · exact Or.inl ⟨he, List.forall_mem_cons.mpr ⟨not_lt.mp hge, hle⟩⟩
      · refine Or.inr ⟨p :: a, x, b, rfl, ?_, hx,
          List.forall_mem_cons.mpr ⟨le_trans (le_of_lt hx) (not_lt.mp hge), hle⟩⟩
        rw [he, List.length_cons, Nat.add_right_comm, Nat.add_assoc]

end OperatingSystem.Paging
