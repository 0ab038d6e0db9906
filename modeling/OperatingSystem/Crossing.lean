import Mathlib.Data.List.Basic
import Mathlib.Data.Nat.Init
import Mathlib.Logic.Function.Iterate

/-! # A crossing as a queue

A place that holds one element, and a queue in front of it. In every tick the next
element arrives. An empty place takes the first of the queue, and the element in the
place makes room for the first one in the queue that faces it or leaves the place
empty.
-/

namespace OperatingSystem

/-- Who is inside, who waits in the order of arrival, and who has not arrived. -/
@[ext]
structure Crossing (α : Type*) where
  inside : Option α
  waiting : List α
  coming : List α
  deriving DecidableEq, Repr

namespace Crossing

variable {α : Type*}

def start (l : List α) : Crossing α := ⟨none, [], l⟩

def Over (s : Crossing α) : Prop := s = ⟨none, [], []⟩

instance [DecidableEq α] (s : Crossing α) : Decidable s.Over := inferInstanceAs (Decidable (_ = _))

theorem over_of_inside {s : Crossing α} (h : s.inside = none)
    (hw : s.waiting ++ s.coming.take 1 = []) : s.Over := by
  obtain ⟨hw, hc⟩ := List.append_eq_nil_iff.mp hw
  apply Crossing.ext h hw
  simpa using hc

variable [DecidableEq α] (facing : α → α)

/-- Who is inside after a tick, and who still waits. -/
def enter : Option α → List α → Option α × List α
  | none, [] => (none, [])
  | none, p :: w => (some p, w)
  | some q, w => if facing q ∈ w then (some (facing q), w.erase (facing q)) else (none, w)

def tick (s : Crossing α) : Crossing α where
  inside := (enter facing s.inside (s.waiting ++ s.coming.take 1)).1
  waiting := (enter facing s.inside (s.waiting ++ s.coming.take 1)).2
  coming := s.coming.tail

def after (l : List α) (k : ℕ) : Crossing α := (tick facing)^[k] (start l)

variable {facing} {s : Crossing α} {l : List α} {m k : ℕ}

section Enter

variable {a b w : List α} {q : α}

@[simp] theorem enter_nil (x : Option α) : enter facing x [] = (none, []) := by
  cases x <;> simp [enter]

theorem enter_facing (h : facing q ∉ a) :
    enter facing (some q) (a ++ facing q :: b) = (some (facing q), a ++ b) := by
  have hmem : facing q ∈ a ++ facing q :: b := by simp
  rw [enter, if_pos hmem, List.erase_append_right _ h, List.erase_cons_head]

theorem enter_blocked (h : facing q ∉ w) : enter facing (some q) w = (none, w) := by
  rw [enter, if_neg h]

end Enter

theorem after_succ : after facing l (k + 1) = tick facing (after facing l k) :=
  Function.iterate_succ_apply' _ _ _

theorem Over.tick (h : s.Over) : (tick facing s).Over := by
  rw [h]
  rfl

theorem Over.mono (h : (after facing l m).Over) (hmk : m ≤ k) : (after facing l k).Over := by
  induction k, hmk using Nat.le_induction with
  | base => exact h
  | succ k _ ih =>
    rw [after_succ]
    exact ih.tick

end Crossing

end OperatingSystem
