import Mathlib.Data.List.Nodup
import Mathlib.Logic.Function.Basic

/-! # Singly linked lists with an end mark

Each cell holds one link. A link that is null belongs to a cell outside every
list, so a cell is in a list as long as its link is not null; the last cell holds
the end mark.
-/

namespace OperatingSystem

inductive Link (α : Type*) where
  | null
  | tail
  | node (a : α)
  deriving DecidableEq, Repr

variable {α : Type*} {next next' : α → Link α} {l x : Link α} {as bs : List α} {a b : α}

/-- The cells that the links lead through from `l` to the end mark. -/
def Chain (next : α → Link α) : Link α → List α → Prop
  | l, [] => l = .tail
  | l, a :: as => l = .node a ∧ Chain next (next a) as

theorem chain_tail_iff : Chain next .tail as ↔ as = [] := by
  cases as with
  | nil => simp [Chain]
  | cons a as => simp [Chain]

theorem chain_node_iff : Chain next (.node a) as ↔ ∃ bs, as = a :: bs ∧ Chain next (next a) bs := by
  cases as with
  | nil => simp [Chain]
  | cons b bs =>
    constructor
    · rintro ⟨hb, hc⟩
      obtain rfl := Link.node.inj hb
      exact ⟨bs, rfl, hc⟩
    · rintro ⟨cs, he, hc⟩
      obtain ⟨rfl, rfl⟩ := List.cons.inj he
      exact ⟨rfl, hc⟩

theorem not_chain_null : ¬ Chain next .null as := by
  cases as with
  | nil => simp [Chain]
  | cons a as => simp [Chain]

/-- The links determine the cells. -/
theorem Chain.unique (h : Chain next l as) (h' : Chain next l bs) : as = bs := by
  induction as generalizing l bs with
  | nil =>
    rw [Chain] at h
    subst h
    exact (chain_tail_iff.mp h').symm
  | cons a as ih =>
    obtain ⟨rfl, hc⟩ := h
    obtain ⟨cs, rfl, hc'⟩ := chain_node_iff.mp h'
    rw [ih hc hc']

theorem Chain.congr (h : Chain next l as) (hn : ∀ a ∈ as, next' a = next a) :
    Chain next' l as := by
  induction as generalizing l with
  | nil => exact h
  | cons a as ih =>
    obtain ⟨rfl, hc⟩ := h
    refine ⟨rfl, ?_⟩
    rw [hn a List.mem_cons_self]
    exact ih hc fun b hb => hn b (List.mem_cons_of_mem _ hb)

theorem Chain.linked (h : Chain next l as) (ha : a ∈ as) : next a ≠ .null := by
  induction as generalizing l with
  | nil => exact absurd ha List.not_mem_nil
  | cons b bs ih =>
    obtain ⟨rfl, hc⟩ := h
    rcases List.mem_cons.mp ha with rfl | hb
    · intro hnull
      rw [hnull] at hc
      exact not_chain_null hc
    · exact ih hc hb

variable [DecidableEq α]

theorem Chain.update (h : Chain next l as) (ha : a ∉ as) : Chain (Function.update next a x) l as :=
  h.congr fun _ hb => Function.update_of_ne (ne_of_mem_of_not_mem hb ha) _ _

/-- A cell that holds the end mark is appended by a write to the link of the last cell. -/
theorem Chain.append (h : Chain next l (as ++ [a])) (hnd : (as ++ [a]).Nodup)
    (hb : b ∉ as ++ [a]) (hend : next b = .tail) :
    Chain (Function.update next a (.node b)) l (as ++ [a] ++ [b]) := by
  induction as generalizing l with
  | nil =>
    obtain ⟨rfl, -⟩ := h
    have hne : b ≠ a := by simpa using hb
    exact ⟨rfl, Function.update_self _ _ _, by rwa [Function.update_of_ne hne]⟩
  | cons c cs ih =>
    obtain ⟨rfl, hc⟩ := h
    obtain ⟨hcs, hnd⟩ := List.nodup_cons.mp hnd
    have hne : c ≠ a := fun he => hcs (by simp [he])
    refine ⟨rfl, ?_⟩
    rw [Function.update_of_ne hne]
    exact ih hc hnd fun hm => hb (List.mem_cons_of_mem _ hm)

end OperatingSystem
