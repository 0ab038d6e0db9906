import Mathlib.Data.List.Basic

/-! # The second-chance queue

The textbook algorithm on a queue of pages with a reference bit: a hit sets the
bit of its page, and a fault on a full queue passes over the pages whose bit is
set, clearing it, until a page with a clear bit is evicted.
-/

namespace OperatingSystem.Paging

variable {α : Type*}

def clear (c : α × Bool) : α × Bool := (c.1, false)

/-- Pop the head, appending it again with a clear bit while its bit is set, and drop the first
page popped with a clear bit. -/
def chance : List (α × Bool) → List (α × Bool)
  | [] => []
  | (_, false) :: q => q
  | (p, true) :: q => chance (q ++ [(p, false)])
termination_by q => q.countP Prod.snd
decreasing_by simp

/-- One reference of the second-chance algorithm with at most `k` pages. -/
def secondChance [DecidableEq α] (k : ℕ) (p : α) (q : List (α × Bool)) : List (α × Bool) :=
  if p ∈ q.map Prod.fst then q.map fun c => if c.1 = p then (c.1, true) else c
  else if q.length < k then q ++ [(p, false)]
  else chance q ++ [(p, false)]

theorem chance_append {a q : List (α × Bool)} {p : α} (ha : ∀ c ∈ a, c.2 = true) :
    chance (a ++ (p, false) :: q) = q ++ a.map clear := by
  induction a generalizing q with
  | nil => simp [chance]
  | cons c a ih =>
    obtain ⟨x, b⟩ := c
    obtain rfl : b = true := ha _ List.mem_cons_self
    have ih := ih (q := q ++ [(x, false)]) fun c hc => ha c (List.mem_cons_of_mem _ hc)
    rw [List.cons_append, chance, List.append_assoc, List.cons_append, ih]
    simp [clear]

/-- With every bit set, the page at the head loses its second chance as well. -/
theorem chance_cons {q : List (α × Bool)} {p : α} (hq : ∀ c ∈ q, c.2 = true) :
    chance ((p, true) :: q) = q.map clear := by
  rw [chance, chance_append hq, List.nil_append]

end OperatingSystem.Paging
