import Mathlib.Logic.Function.Iterate
import OperatingSystem.Forest

/-! # The walk over the task groups

`walk_tg_tree_from` walks a tree of groups with two jumps instead of a recursion:
it leaves the loop over the children of a group to enter a child, and jumps back
into the loop of the parent behind the child it has left for good.
-/

namespace OperatingSystem.Kernel

variable {G σ : Type*} [DecidableEq G]

/-- Where the walk stands: at the label `down`, before the call of `up`, or at the label `out`. -/
inductive Walk (G σ : Type*) where
  | down (parent : G) (s : σ)
  | up (parent : G) (s : σ)
  | out (ret : ℤ) (s : σ)

/-- The walk up to the next call of a visitor. Visitors change the memory `s`. -/
def walkStep (place : G → Option (Place G)) (start : G) (down up : G → σ → ℤ × σ) :
    Walk G σ → Walk G σ
  | .down parent s =>
    let (ret, s) := down parent s
    if ret ≠ 0 then .out ret s
    else
      match (place parent).bind fun p => p.children.first with
      | some child => .down child s
      | none => .up parent s
  | .up parent s =>
    let (ret, s) := up parent s
    if ret ≠ 0 ∨ parent = start then .out ret s
    else
      let child := parent
      match (place child).bind Place.parent with
      | some parent =>
        -- `goto up`: the loop over the children of `parent` goes on behind `child`
        match (place child).bind Place.next with
        | some child => .down child s
        | none => .up parent s
      | none => .out ret s
  | .out ret s => .out ret s

/-- The walk up to its `n`-th call of a visitor. -/
def walkTgTreeFrom (place : G → Option (Place G)) (start : G) (down up : G → σ → ℤ × σ) (s : σ)
    (n : ℕ) : Walk G σ :=
  (walkStep place start down up)^[n] (.down start s)

section Step

variable {place : G → Option (Place G)} {start a q : G} {down up : G → σ → ℤ × σ} {s : σ} {n : ℕ}
  {children siblings f : Forest G} {r : ℤ × σ} {p : Option G}

/-- The walk at the loop over the groups `f` below `q`. -/
def Walk.enter (q : G) (f : Forest G) (s : σ) : Walk G σ :=
  match f.first with
  | some child => .down child s
  | none => .up q s

/-- The walk behind the groups below `q`. -/
def Walk.leave (q : G) (r : ℤ × σ) : Walk G σ := if r.1 ≠ 0 then .out r.1 r.2 else .up q r.2

theorem walkStep_out {ret : ℤ} : (walkStep place start down up)^[n] (.out ret s) = .out ret s :=
  Function.iterate_fixed rfl n

theorem walkStep_down (hp : place a = some ⟨p, children, siblings.first⟩) :
    walkStep place start down up (.down a s) =
      if (down a s).1 ≠ 0 then .out (down a s).1 (down a s).2
      else .enter a children (down a s).2 := by
  simp only [walkStep, hp, Option.bind_some, Walk.enter]

theorem walkStep_up (hp : place a = some ⟨some q, children, siblings.first⟩) (ha : a ≠ start) :
    walkStep place start down up (.up a s) =
      if (up a s).1 ≠ 0 then .out (up a s).1 (up a s).2 else .enter q siblings (up a s).2 := by
  simp only [walkStep, hp, Option.bind_some, ha, or_false, Walk.enter]

/-- The walk gets from one point to another within `k` calls. -/
def Walk.Within (step : Walk G σ → Walk G σ) (k : ℕ) (w w' : Walk G σ) : Prop :=
  ∃ n ≤ k, step^[n] w = w'

omit [DecidableEq G] in
theorem Walk.Within.head {step : Walk G σ → Walk G σ} {k : ℕ} {w w' : Walk G σ}
    (h : Walk.Within step k (step w) w') : Walk.Within step (k + 1) w w' := by
  obtain ⟨n, hn, rfl⟩ := h
  exact ⟨n + 1, Nat.succ_le_succ hn, Function.iterate_succ_apply _ _ _⟩

omit [DecidableEq G] in
theorem Walk.Within.trans {step : Walk G σ → Walk G σ} {k l : ℕ} {w w' w'' : Walk G σ}
    (h : Walk.Within step k w w') (h' : Walk.Within step l w' w'') :
    Walk.Within step (k + l) w w'' := by
  obtain ⟨n, hn, rfl⟩ := h
  obtain ⟨n', hn', rfl⟩ := h'
  exact ⟨n' + n, by omega, Function.iterate_add_apply _ _ _ _⟩

/-- The loop over the groups below `q` visits them and ends behind them. -/
theorem walk_siblings (hf : f.Places place (some q)) (hstart : start ∉ f.nodes) :
    Walk.Within (walkStep place start down up) (2 * f.nodes.length) (.enter q f s)
      (.leave q (f.visit down up s)) := by
  induction f generalizing q s with
  | nil => exact ⟨0, Nat.zero_le _, rfl⟩
  | cons a children siblings ihc ihs =>
    obtain ⟨ha, hc, hs⟩ := hf
    rw [Forest.nodes, List.mem_cons, List.mem_append, not_or, not_or] at hstart
    obtain ⟨hne, hstartc, hstarts⟩ := hstart
    have hlen : 2 * (Forest.cons a children siblings).nodes.length =
        2 * children.nodes.length + (2 * siblings.nodes.length + 1) + 1 := by
      simp only [Forest.nodes, List.length_cons, List.length_append]
      omega
    rw [hlen, Forest.visit]
    dsimp only
    refine Walk.Within.head ?_
    change Walk.Within _ _ (walkStep place start down up (.down a s)) _
    rw [walkStep_down ha]
    split
    case isTrue hret =>
      exact ⟨0, Nat.zero_le _, (if_pos hret).symm⟩
    case isFalse hret =>
      refine (ihc hc hstartc).trans ?_
      generalize children.visit down up (down a s).2 = r
      unfold Walk.leave
      split
      case isTrue hr => exact ⟨0, Nat.zero_le _, rfl⟩
      case isFalse hr =>
        refine Walk.Within.head ?_
        rw [walkStep_up ha (Ne.symm hne)]
        split
        case isTrue hup => exact ⟨0, Nat.zero_le _, rfl⟩
        case isFalse hup => exact ihs hs hstarts

/-- The walk from a group ends behind the groups below it, with the error of the first visitor
that returns one. -/
theorem walkTgTreeFrom_visit {next : Option G} (hplace : place start = some ⟨p, children, next⟩)
    (hc : children.Places place (some start)) (hstart : start ∉ children.nodes)
    (hn : 2 * (children.nodes.length + 1) ≤ n) :
    walkTgTreeFrom place start down up s n =
      .out ((Forest.cons start children .nil).visit down up s).1
        ((Forest.cons start children .nil).visit down up s).2 := by
  have hwithin : Walk.Within (walkStep place start down up) (2 * children.nodes.length + 1 + 1)
      (.down start s) (.out ((Forest.cons start children .nil).visit down up s).1
        ((Forest.cons start children .nil).visit down up s).2) := by
    refine Walk.Within.head ?_
    have hdown : walkStep place start down up (.down start s) =
        if (down start s).1 ≠ 0 then .out (down start s).1 (down start s).2
        else .enter start children (down start s).2 := by
      simp only [walkStep, hplace, Option.bind_some, Walk.enter]
    rw [hdown, Forest.visit]
    dsimp only
    split
    case isTrue hret => exact ⟨0, Nat.zero_le _, rfl⟩
    case isFalse hret =>
      refine (walk_siblings hc hstart).trans ?_
      generalize children.visit down up (down start s).2 = r
      unfold Walk.leave
      split
      case isTrue hr => exact ⟨0, Nat.zero_le _, rfl⟩
      case isFalse hr =>
        refine ⟨1, Nat.le_add_left _ _, ?_⟩
        change walkStep place start down up (.up start r.2) = _
        simp only [walkStep, or_true, if_true]
        split
        case isTrue => rfl
        case isFalse hup => rw [not_not.mp hup]; rfl
  obtain ⟨k, hk, he⟩ := hwithin
  obtain ⟨d, rfl⟩ := Nat.exists_eq_add_of_le' (show k ≤ n by omega)
  rw [walkTgTreeFrom, Function.iterate_add_apply, he]
  exact walkStep_out

end Step

def Walk.result : Walk G σ → Option (ℤ × σ)
  | .out ret s => some (ret, s)
  | _ => none

structure TaskGroups (G : Type*) where
  rootTaskGroup : G
  children : Forest G
  nodup : (Forest.cons rootTaskGroup children .nil).nodes.Nodup

namespace TaskGroups

variable {t t' : TaskGroups G} {tg parent : G} {as : List G}

def ofRoot (root : G) : TaskGroups G := ⟨root, .nil, List.nodup_singleton root⟩

def tree (t : TaskGroups G) : Forest G := .cons t.rootTaskGroup t.children .nil

def place (t : TaskGroups G) (tg : G) : Option (Place G) := t.tree.locate tg none

def schedOnlineGroup (t : TaskGroups G) (tg parent : G) : Option (TaskGroups G) :=
  if h : parent ∈ t.tree.nodes ∧ tg ∉ t.tree.nodes then
    some
      { rootTaskGroup := t.rootTaskGroup
        children :=
          if t.rootTaskGroup = parent then .cons tg .nil t.children
          else t.children.insert parent tg
        nodup := by
          have hperm := Forest.nodes_insert (b := tg) h.1 t.nodup
          have hnd := hperm.nodup_iff.mpr (List.nodup_cons.mpr ⟨h.2, t.nodup⟩)
          rw [tree, Forest.insert] at hnd
          split
          case isTrue he => rwa [if_pos he] at hnd
          case isFalse he => rwa [if_neg he] at hnd }
  else none

/-- `sched_offline_group` of a group without children. -/
def schedOfflineGroup (t : TaskGroups G) (tg : G) : TaskGroups G where
  rootTaskGroup := t.rootTaskGroup
  children := t.children.remove tg
  nodup := by
    refine List.Nodup.sublist ?_ t.nodup
    exact (Forest.nodes_remove.append_right _).cons_cons _

def walkTgTree (t : TaskGroups G) (down up : G → σ → ℤ × σ) (s : σ) : Option (ℤ × σ) :=
  (walkTgTreeFrom t.place t.rootTaskGroup down up s (2 * t.tree.nodes.length)).result

theorem schedOnlineGroup_tree (h : t.schedOnlineGroup tg parent = some t') :
    t'.rootTaskGroup = t.rootTaskGroup ∧ parent ∈ t.tree.nodes ∧ tg ∉ t.tree.nodes ∧
      t'.tree = t.tree.insert parent tg := by
  unfold schedOnlineGroup at h
  split at h
  case isFalse => cases h
  case isTrue hg =>
    obtain rfl := Option.some.inj h
    refine ⟨rfl, hg.1, hg.2, ?_⟩
    rw [tree, tree, Forest.insert]
    dsimp only
    split <;> rfl

theorem schedOfflineGroup_paths (h : (tg, as) ∈ (t.schedOfflineGroup parent).tree.paths []) :
    (tg, as) ∈ t.tree.paths [] := by
  simp only [tree, schedOfflineGroup, Forest.paths, List.mem_cons, List.mem_append] at h ⊢
  rcases h with h | h | h
  · exact Or.inl h
  · exact Or.inr (Or.inl (Forest.paths_remove h))
  · exact Or.inr (Or.inr h)

theorem places (t : TaskGroups G) :
    t.place t.rootTaskGroup = some ⟨none, t.children, none⟩ ∧
      t.children.Places t.place (some t.rootTaskGroup) ∧ t.children.nodes.Nodup ∧
      t.rootTaskGroup ∉ t.children.nodes := by
  obtain ⟨hroot, hplaces, -⟩ : t.tree.Places t.place none := Forest.places_locate t.nodup
  obtain ⟨hout, hnd⟩ := List.nodup_cons.mp t.nodup
  simp only [Forest.nodes, List.append_nil] at hout hnd
  exact ⟨hroot, hplaces, hnd, hout⟩

theorem parent_of_path (t : TaskGroups G) (h : (tg, as) ∈ t.tree.paths []) :
    (t.place tg).bind Place.parent = as.head? := by
  have hplaces : t.tree.Places t.place none := Forest.places_locate t.nodup
  exact Forest.each_top_iff.mp hplaces.each tg as h

theorem filterMap_single {β : Type*} (t : TaskGroups G) {b : G → Option β} (h : tg ∈ t.tree.nodes)
    (hb : ∀ g, g ≠ tg → b g = none) : t.tree.nodes.filterMap b = (b tg).toList := by
  have hplaces : t.tree.Places t.place none := Forest.places_locate t.nodup
  obtain ⟨p, hp⟩ : ∃ p, t.place tg = some p := by
    rw [← Option.ne_none_iff_exists', Ne, place, Forest.locate_eq_none]
    exact not_not.mpr h
  obtain ⟨-, hout, -⟩ := hplaces.below t.nodup h hp
  have hself : tg ∈ (Forest.subtree tg p).nodes := by simp [Forest.nodes_subtree]
  have hrest : p.children.nodes.filterMap b = [] := by
    rw [List.filterMap_eq_nil_iff]
    rintro g hg
    exact hb g (ne_of_mem_of_not_mem hg hout)
  rw [hplaces.filterMap_subtree t.nodup h hp fun a ha => hb a (ne_of_mem_of_not_mem hself ha).symm,
    Forest.nodes_subtree, List.filterMap_cons, hrest]
  cases b tg <;> rfl

theorem walkTgTree_visit (down up : G → σ → ℤ × σ) (s : σ) :
    t.walkTgTree down up s = some (t.tree.visit down up s) := by
  obtain ⟨hroot, hplaces, -, hout⟩ := t.places
  have hlen : t.tree.nodes.length = t.children.nodes.length + 1 := by
    simp [tree, Forest.nodes]
  rw [walkTgTree, walkTgTreeFrom_visit hroot hplaces hout (by omega)]
  rfl

/-- `walk_tg_tree_from` with its two jumps is the recursion over the tree below any group: it ends
after at most two calls a group, having called the visitors in this order up to the first error. -/
theorem walkTgTreeFrom_recursion (down up : G → σ → ℤ × σ) (s : σ) {start : G} {p : Place G} {n : ℕ}
    (hp : t.place start = some p) (hn : 2 * (p.children.nodes.length + 1) ≤ n) :
    walkTgTreeFrom t.place start down up s n =
      .out ((Forest.cons start p.children .nil).visit down up s).1
        ((Forest.cons start p.children .nil).visit down up s).2 := by
  have hplaces : t.tree.Places t.place none := Forest.places_locate t.nodup
  have hmem : start ∈ t.tree.nodes := by
    by_contra hnot
    rw [place, Forest.locate_eq_none.mpr hnot] at hp
    cases hp
  obtain ⟨hbelow, hout, -⟩ := hplaces.below t.nodup hmem hp
  exact walkTgTreeFrom_visit hp hbelow hout hn

def threeGroups : TaskGroups (Option Bool) where
  rootTaskGroup := none
  children := .cons (some true) (.cons (some false) .nil .nil) .nil
  nodup := by decide

/-- The walk from the upper of the two groups, with a visitor that refuses the lower one. -/
theorem walkTgTreeFrom_recursion_threeGroups :
    let down : Option Bool → List (Option Bool) → ℤ × List (Option Bool) := fun tg seen =>
      if tg = some false then (-22, seen) else (0, tg :: seen)
    walkTgTreeFrom threeGroups.place (some true) down (fun _ seen => (0, seen)) [] 4 =
      .out (-22) [some true] :=
  walkTgTreeFrom_recursion _ _ _ (p := ⟨some none, .cons (some false) .nil .nil, none⟩) rfl
    (by decide)

end TaskGroups

end OperatingSystem.Kernel
