import Mathlib.Data.Int.Notation
import Mathlib.Data.List.Nodup
import Mathlib.Data.List.Perm.Basic
import Mathlib.Order.Basic

/-! # Forests of named nodes

A forest is a list of trees, each a node with the forest of its children. Where
the names are distinct, a name determines its place: the parent, the children and
the next sibling.
-/

namespace OperatingSystem

inductive Forest (α : Type*) where
  | nil
  | cons (a : α) (children siblings : Forest α)
  deriving DecidableEq, Repr

/-- Where a node stands: below its parent, above its children, before its next sibling. -/
structure Place (α : Type*) where
  parent : Option α
  children : Forest α
  next : Option α
  deriving DecidableEq, Repr

namespace Forest

variable {α : Type*}

def nodes : Forest α → List α
  | nil => []
  | cons a children siblings => a :: (children.nodes ++ siblings.nodes)

def first : Forest α → Option α
  | nil => none
  | cons a _ _ => some a

/-- The nodes with the nodes above them, the nearest first. -/
def paths (above : List α) : Forest α → List (α × List α)
  | nil => []
  | cons a children siblings =>
    (a, above) :: (children.paths (a :: above) ++ siblings.paths above)

theorem map_paths {f : Forest α} {above : List α} : (f.paths above).map Prod.fst = f.nodes := by
  induction f generalizing above with
  | nil => rfl
  | cons a children siblings ihc ihs => simp [paths, nodes, ihc, ihs]

theorem mem_nodes_of_path {f : Forest α} {above as : List α} {a : α}
    (h : (a, as) ∈ f.paths above) : a ∈ f.nodes := by
  have hmem := List.mem_map_of_mem (f := Prod.fst) h
  rwa [map_paths] at hmem

theorem exists_path {f : Forest α} {above : List α} {a : α} (h : a ∈ f.nodes) :
    ∃ as, (a, as) ∈ f.paths above := by
  rw [← map_paths] at h
  obtain ⟨⟨b, as⟩, hmem, rfl⟩ := List.mem_map.mp h
  exact ⟨as, hmem⟩

theorem mem_nodes_of_above {f : Forest α} {above as : List α} {a b : α}
    (h : (a, as) ∈ f.paths above) (hb : b ∈ as) : b ∈ above ∨ b ∈ f.nodes := by
  induction f generalizing above with
  | nil => exact absurd h List.not_mem_nil
  | cons c children siblings ihc ihs =>
    simp only [paths, nodes, List.mem_cons, List.mem_append, Prod.mk.injEq] at h ⊢
    rcases h with ⟨rfl, rfl⟩ | h | h
    · exact Or.inl hb
    · rcases ihc h with hc | hc
      · rcases List.mem_cons.mp hc with rfl | hc
        · exact Or.inr (Or.inl rfl)
        · exact Or.inl hc
      · exact Or.inr (Or.inr (Or.inl hc))
    · rcases ihs h with hs | hs
      · exact Or.inl hs
      · exact Or.inr (Or.inr (Or.inr hs))

/-- The places of all nodes, below a node or at the top. -/
def Places (place : α → Option (Place α)) (up : Option α) : Forest α → Prop
  | nil => True
  | cons a children siblings => place a = some ⟨up, children, siblings.first⟩ ∧
      children.Places place (some a) ∧ siblings.Places place up

theorem Places.congr {place place' : α → Option (Place α)} {f : Forest α} {up : Option α}
    (h : f.Places place up) (heq : ∀ b ∈ f.nodes, place' b = place b) : f.Places place' up := by
  induction f generalizing up with
  | nil => trivial
  | cons a children siblings ihc ihs =>
    obtain ⟨ha, hc, hs⟩ := h
    refine ⟨(heq a (by simp [nodes])).trans ha, ihc hc fun b hb => heq b ?_,
      ihs hs fun b hb => heq b ?_⟩
    · simp [nodes, hb]
    · simp [nodes, hb]

theorem Places.below {place : α → Option (Place α)} {f : Forest α} {up : Option α} {b : α}
    {p : Place α} (h : f.Places place up) (hnd : f.nodes.Nodup) (hb : b ∈ f.nodes)
    (hp : place b = some p) :
    p.children.Places place (some b) ∧ b ∉ p.children.nodes ∧ p.children.nodes.Nodup := by
  induction f generalizing up with
  | nil => exact absurd hb List.not_mem_nil
  | cons a children siblings ihc ihs =>
    obtain ⟨ha, hc, hs⟩ := h
    obtain ⟨hanot, hcs⟩ := List.nodup_cons.mp hnd
    obtain ⟨hndc, hnds, -⟩ := List.nodup_append.mp hcs
    simp only [nodes, List.mem_cons, List.mem_append] at hb
    rcases hb with rfl | hb | hb
    · obtain rfl := Option.some.inj (ha.symm.trans hp)
      exact ⟨hc, fun hm => hanot (List.mem_append_left _ hm), hndc⟩
    · exact ihc hc hndc hb
    · exact ihs hs hnds hb

def subtree (b : α) (p : Place α) : Forest α := cons b p.children nil

theorem nodes_subtree {b : α} {p : Place α} : (subtree b p).nodes = b :: p.children.nodes := by
  simp [subtree, nodes]

theorem Places.subtree_infix {place : α → Option (Place α)} {f : Forest α} {up : Option α} {b : α}
    {p : Place α} (h : f.Places place up) (hb : b ∈ f.nodes) (hp : place b = some p) :
    (subtree b p).nodes <:+: f.nodes := by
  induction f generalizing up with
  | nil => exact absurd hb List.not_mem_nil
  | cons a children siblings ihc ihs =>
    obtain ⟨ha, hc, hs⟩ := h
    simp only [nodes, List.mem_cons, List.mem_append] at hb
    rcases hb with rfl | hb | hb
    · obtain rfl := Option.some.inj (ha.symm.trans hp)
      rw [nodes_subtree]
      exact ⟨[], siblings.nodes, rfl⟩
    · exact List.infix_cons (List.infix_append_of_infix_left (ihc hc hb))
    · exact List.infix_cons (List.infix_append_of_infix_right (ihs hs hb))

/-- What keeps nothing outside the tree of a node selects from this tree. -/
theorem Places.filterMap_subtree {β : Type*} {place : α → Option (Place α)} {f : Forest α}
    {up : Option α} {b : α} {p : Place α} {sel : α → Option β} (h : f.Places place up)
    (hnd : f.nodes.Nodup) (hb : b ∈ f.nodes) (hp : place b = some p)
    (hout : ∀ a, a ∉ (subtree b p).nodes → sel a = none) :
    f.nodes.filterMap sel = (subtree b p).nodes.filterMap sel := by
  obtain ⟨pre, post, heq⟩ := h.subtree_infix hb hp
  rw [← heq] at hnd ⊢
  obtain ⟨hleft, -, hpost⟩ := List.nodup_append.mp hnd
  obtain ⟨-, -, hpre⟩ := List.nodup_append.mp hleft
  have hprenil : pre.filterMap sel = [] := by
    rw [List.filterMap_eq_nil_iff]
    exact fun a ha => hout a fun hm => hpre a ha a hm rfl
  have hpostnil : post.filterMap sel = [] := by
    rw [List.filterMap_eq_nil_iff]
    exact fun a ha => hout a fun hm => hpost a (List.mem_append_right _ hm) a ha rfl
  rw [List.filterMap_append, List.filterMap_append, hprenil, hpostnil, List.nil_append,
    List.append_nil]

theorem Places.parent_notMem {place : α → Option (Place α)} {f : Forest α} {up : Option α} {b : α}
    {p : Place α} (h : f.Places place up) (hnd : f.nodes.Nodup) (hup : ∀ q ∈ up, q ∉ f.nodes)
    (hb : b ∈ f.nodes) (hp : place b = some p) : ∀ q ∈ p.parent, q ∉ (subtree b p).nodes := by
  induction f generalizing up with
  | nil => exact absurd hb List.not_mem_nil
  | cons a children siblings ihc ihs =>
    obtain ⟨ha, hc, hs⟩ := h
    obtain ⟨hanot, hcs⟩ := List.nodup_cons.mp hnd
    obtain ⟨hndc, hnds, -⟩ := List.nodup_append.mp hcs
    simp only [nodes, List.mem_cons, List.mem_append] at hb hup
    rcases hb with rfl | hb | hb
    · obtain rfl := Option.some.inj (ha.symm.trans hp)
      intro q hq hm
      rw [nodes_subtree] at hm
      exact hup q hq ((List.mem_cons.mp hm).imp_right Or.inl)
    · refine ihc hc hndc ?_ hb
      intro q hq hm
      obtain rfl := Option.some.inj hq
      exact hanot (List.mem_append_left _ hm)
    · exact ihs hs hnds (fun q hq hm => hup q hq (Or.inr (Or.inr hm))) hb

/-- Visit all nodes, with `down` before the children of a node and `up` behind them, until a
visitor returns an error. -/
def visit {σ : Type*} (down up : α → σ → ℤ × σ) : Forest α → σ → ℤ × σ
  | nil, s => (0, s)
  | cons a children siblings, s =>
    let r := down a s
    if r.1 ≠ 0 then r
    else
      let r := children.visit down up r.2
      if r.1 ≠ 0 then r
      else
        let r := up a r.2
        if r.1 ≠ 0 then r else siblings.visit down up r.2

section Locate

variable [DecidableEq α] {a b p : α} {up : Option α} {f : Forest α}

def locate (b : α) (up : Option α) : Forest α → Option (Place α)
  | nil => none
  | cons a children siblings =>
    if a = b then some ⟨up, children, siblings.first⟩
    else (children.locate b (some a)).or (siblings.locate b up)

theorem locate_eq_none : f.locate b up = none ↔ b ∉ f.nodes := by
  induction f generalizing up with
  | nil => simp [locate, nodes]
  | cons a children siblings ihc ihs =>
    rw [locate, nodes]
    split
    case isTrue h => simp [h]
    case isFalse h => simp [ihc, ihs, Ne.symm h]

theorem places_locate (h : f.nodes.Nodup) : f.Places (fun b => f.locate b up) up := by
  induction f generalizing up with
  | nil => trivial
  | cons a children siblings ihc ihs =>
    obtain ⟨ha, hcs⟩ := List.nodup_cons.mp h
    obtain ⟨hc, hs, hdis⟩ := List.nodup_append.mp hcs
    refine ⟨by simp [locate], (ihc hc).congr fun b hb => ?_, (ihs hs).congr fun b hb => ?_⟩
    · have hne : a ≠ b := by
        rintro rfl
        exact ha (by simp [hb])
      have hsome : children.locate b (some a) ≠ none := by
        rw [Ne, locate_eq_none]
        exact not_not.mpr hb
      obtain ⟨place, hplace⟩ := Option.ne_none_iff_exists'.mp hsome
      rw [locate, if_neg hne, hplace, Option.some_or]
    · have hne : a ≠ b := by
        rintro rfl
        exact ha (by simp [hb])
      have hnone : children.locate b (some a) = none :=
        locate_eq_none.mpr fun hb' => hdis b hb' b hb rfl
      rw [locate, if_neg hne, hnone, Option.none_or]

end Locate

section Each

/-- A property of every node and the node above it. -/
def Each (P : Option α → α → Prop) (up : Option α) : Forest α → Prop
  | nil => True
  | cons a children siblings => P up a ∧ children.Each P (some a) ∧ siblings.Each P up

variable {P Q : Option α → α → Prop} {up : Option α} {above : List α} {f : Forest α}

theorem each_iff : f.Each P above.head? ↔ ∀ a as, (a, as) ∈ f.paths above → P as.head? a := by
  induction f generalizing above with
  | nil => simp [Each, paths]
  | cons c children siblings ihc ihs =>
    have hchildren : children.Each P (some c) ↔
        ∀ a as, (a, as) ∈ children.paths (c :: above) → P as.head? a := by
      rw [← ihc, List.head?_cons]
    rw [Each, hchildren, ihs]
    constructor
    · rintro ⟨hc, hcs, hss⟩ a as hmem
      simp only [paths, List.mem_cons, List.mem_append, Prod.mk.injEq] at hmem
      rcases hmem with ⟨rfl, rfl⟩ | hmem | hmem
      · exact hc
      · exact hcs a as hmem
      · exact hss a as hmem
    · intro hall
      refine ⟨hall c above (by simp [paths]), fun a as hmem => hall a as ?_, fun a as hmem =>
        hall a as ?_⟩
      · simp [paths, hmem]
      · simp [paths, hmem]

theorem each_top_iff : f.Each P none ↔ ∀ a as, (a, as) ∈ f.paths [] → P as.head? a :=
  @each_iff _ P [] f

theorem Places.each {place : α → Option (Place α)} (h : f.Places place up) :
    f.Each (fun u a => (place a).bind Place.parent = u) up := by
  induction f generalizing up with
  | nil => trivial
  | cons a children siblings ihc ihs =>
    obtain ⟨ha, hc, hs⟩ := h
    have hself : (place a).bind Place.parent = up := by rw [ha]; rfl
    exact ⟨hself, ihc hc, ihs hs⟩

theorem Each.imp (h : f.Each P up)
    (hpq : ∀ u a, a ∈ f.nodes → (u = up ∨ ∃ q ∈ f.nodes, u = some q) → P u a → Q u a) :
    f.Each Q up := by
  induction f generalizing up with
  | nil => trivial
  | cons a children siblings ihc ihs =>
    obtain ⟨ha, hc, hs⟩ := h
    refine ⟨hpq up a (by simp [nodes]) (Or.inl rfl) ha, ihc hc fun u c hm hu => ?_,
      ihs hs fun u c hm hu => ?_⟩
    · refine hpq u c (by simp [nodes, hm]) (Or.inr ?_)
      rcases hu with rfl | ⟨q, hq, rfl⟩
      · exact ⟨a, by simp [nodes], rfl⟩
      · exact ⟨q, by simp [nodes, hq], rfl⟩
    · refine hpq u c (by simp [nodes, hm]) ?_
      rcases hu with rfl | ⟨q, hq, rfl⟩
      · exact Or.inl rfl
      · exact Or.inr ⟨q, by simp [nodes, hq], rfl⟩

theorem Each.below {place : α → Option (Place α)} {b : α} {p : Place α} (h : f.Each P up)
    (hplaces : f.Places place up) (hb : b ∈ f.nodes) (hp : place b = some p) :
    (subtree b p).Each P p.parent := by
  induction f generalizing up with
  | nil => exact absurd hb List.not_mem_nil
  | cons a children siblings ihc ihs =>
    obtain ⟨ha, hpc, hps⟩ := hplaces
    obtain ⟨hself, hc, hs⟩ := h
    simp only [nodes, List.mem_cons, List.mem_append] at hb
    rcases hb with rfl | hb | hb
    · obtain rfl := Option.some.inj (ha.symm.trans hp)
      exact ⟨hself, hc, trivial⟩
    · exact ihc hc hpc hb
    · exact ihs hs hps hb

/-- A property of every node but the top ones, and the node above it. -/
def Deep (P : Option α → α → Prop) : Forest α → Prop
  | nil => True
  | cons a children siblings => children.Each P (some a) ∧ siblings.Deep P

theorem Each.deep (h : f.Each P up) : f.Deep P := by
  induction f generalizing up with
  | nil => trivial
  | cons a children siblings ihc ihs => exact ⟨h.2.1, ihs h.2.2⟩

theorem Deep.imp (h : f.Deep P)
    (hpq : ∀ q a, a ∈ f.nodes → q ∈ f.nodes → P (some q) a → Q (some q) a) : f.Deep Q := by
  induction f with
  | nil => trivial
  | cons a children siblings ihc ihs =>
    refine ⟨h.1.imp fun u c hm hu => ?_, ihs h.2 fun q c hm hq => hpq q c ?_ ?_⟩
    · rcases hu with rfl | ⟨q, hq, rfl⟩
      · exact hpq a c (by simp [nodes, hm]) (by simp [nodes])
      · exact hpq q c (by simp [nodes, hm]) (by simp [nodes, hq])
    · simp [nodes, hm]
    · simp [nodes, hq]

/-- A property that is restored below one node and that nothing else touches is restored. -/
theorem Each.splice {place : α → Option (Place α)} {b : α} {p : Place α} (h : f.Each P up)
    (hplaces : f.Places place up) (hnd : f.nodes.Nodup) (hup : ∀ q ∈ up, q ∉ f.nodes)
    (hb : b ∈ f.nodes) (hp : place b = some p) (hsub : (subtree b p).Each Q p.parent)
    (hout : ∀ u a, a ∉ (subtree b p).nodes → (∀ q ∈ u, q ∉ (subtree b p).nodes) →
      P u a → Q u a) : f.Each Q up := by
  induction f generalizing up with
  | nil => exact absurd hb List.not_mem_nil
  | cons a children siblings ihc ihs =>
    have hwhole := (hplaces.subtree_infix hb hp).subset
    obtain ⟨ha, hpc, hps⟩ := hplaces
    obtain ⟨hself, hc, hs⟩ := h
    obtain ⟨hanot, hcs⟩ := List.nodup_cons.mp hnd
    obtain ⟨hndc, hnds, hdis⟩ := List.nodup_append.mp hcs
    simp only [List.mem_append, not_or] at hanot
    have hupc : ∀ q ∈ up, q ∉ (subtree b p).nodes := fun q hq hm => hup q hq (hwhole hm)
    -- what is outside the tree of `b` stays
    have hkeep : ∀ {f' : Forest α}, f'.Each P up → (∀ c ∈ f'.nodes, c ∉ (subtree b p).nodes) →
        f'.Each Q up := by
      intro f' hf' hnot
      refine hf'.imp fun u c hm hu => hout u c (hnot c hm) ?_
      rcases hu with rfl | ⟨q, hq, rfl⟩
      · exact hupc
      · intro q' hq'
        obtain rfl := Option.some.inj hq'
        exact hnot q hq
    simp only [nodes, List.mem_cons, List.mem_append] at hb
    by_cases hba : b = a
    · subst hba
      obtain rfl := Option.some.inj (ha.symm.trans hp)
      refine ⟨hsub.1, hsub.2.1, hkeep hs fun c hm hin => ?_⟩
      rw [nodes_subtree] at hin
      rcases List.mem_cons.mp hin with rfl | hin
      · exact hanot.2 hm
      · exact hdis c hin c hm rfl
    · by_cases hbc : b ∈ children.nodes
      · have hinc := (hpc.subtree_infix hbc hp).subset
        refine ⟨hout up a (fun hm => hanot.1 (hinc hm)) hupc hself,
          ihc hc hpc hndc ?_ hbc, hkeep hs fun c hm hin => hdis c (hinc hin) c hm rfl⟩
        intro q hq
        obtain rfl := Option.some.inj hq
        exact hanot.1
      · have hbs : b ∈ siblings.nodes := (hb.resolve_left hba).resolve_left hbc
        have hins := (hps.subtree_infix hbs hp).subset
        have hnotc : ∀ c ∈ children.nodes, c ∉ (subtree b p).nodes :=
          fun c hm hin => hdis c hm c (hins hin) rfl
        have hnota : a ∉ (subtree b p).nodes := fun hm => hanot.2 (hins hm)
        refine ⟨hout up a hnota hupc hself, hc.imp fun u c hm hu => hout u c (hnotc c hm) ?_,
          ihs hs hps hnds (fun q hq hm => hup q hq (by simp [nodes, hm])) hbs⟩
        rcases hu with rfl | ⟨q, hq, rfl⟩
        · intro q' hq'
          obtain rfl := Option.some.inj hq'
          exact hnota
        · intro q' hq'
          obtain rfl := Option.some.inj hq'
          exact hnotc q hq

end Each

section Grow

variable [DecidableEq α] {a b p : α} {above as : List α} {f : Forest α}

/-- A new first child of `p`. -/
def insert (p b : α) : Forest α → Forest α
  | nil => nil
  | cons a children siblings =>
    if a = p then cons a (cons b nil children) siblings
    else cons a (children.insert p b) (siblings.insert p b)

def remove (b : α) : Forest α → Forest α
  | nil => nil
  | cons a children siblings =>
    if a = b ∧ children = nil then siblings else cons a (children.remove b) (siblings.remove b)

theorem insert_of_notMem (h : p ∉ f.nodes) : f.insert p b = f := by
  induction f with
  | nil => rfl
  | cons a children siblings ihc ihs =>
    simp only [nodes, List.mem_cons, List.mem_append, not_or] at h
    rw [insert, if_neg (Ne.symm h.1), ihc h.2.1, ihs h.2.2]

theorem nodes_insert (hp : p ∈ f.nodes) (hnd : f.nodes.Nodup) :
    (f.insert p b).nodes.Perm (b :: f.nodes) := by
  induction f with
  | nil => exact absurd hp List.not_mem_nil
  | cons a children siblings ihc ihs =>
    obtain ⟨ha, hcs⟩ := List.nodup_cons.mp hnd
    obtain ⟨hc, hs, hdis⟩ := List.nodup_append.mp hcs
    rw [insert]
    split
    case isTrue h => exact List.Perm.swap b a _
    case isFalse h =>
      simp only [nodes]
      refine List.Perm.trans (List.Perm.cons a ?_) (List.Perm.swap b a _)
      rcases List.mem_append.mp ((List.mem_cons.mp hp).resolve_left (Ne.symm h)) with hpc | hps
      · have hps : p ∉ siblings.nodes := fun hps => hdis p hpc p hps rfl
        rw [insert_of_notMem hps]
        exact (ihc hpc hc).append_right _
      · have hpc : p ∉ children.nodes := fun hpc => hdis p hpc p hps rfl
        rw [insert_of_notMem hpc]
        exact ((ihs hps hs).append_left _).trans List.perm_middle

theorem mem_paths_insert (h : (a, as) ∈ (f.insert p b).paths above) :
    (a, as) ∈ f.paths above ∨ a = b ∧ ∃ bs, as = p :: bs ∧ (p, bs) ∈ f.paths above := by
  induction f generalizing above with
  | nil => exact absurd h List.not_mem_nil
  | cons c children siblings ihc ihs =>
    rw [insert] at h
    split at h
    case isTrue hc =>
      subst hc
      simp only [paths, List.nil_append, List.cons_append, List.mem_cons, List.mem_append,
        Prod.mk.injEq] at h ⊢
      rcases h with h | ⟨rfl, rfl⟩ | h
      · exact Or.inl (Or.inl h)
      · exact Or.inr ⟨rfl, above, rfl, by simp⟩
      · exact Or.inl (Or.inr h)
    case isFalse hc =>
      simp only [paths, List.mem_cons, List.mem_append] at h ⊢
      rcases h with h | h | h
      · exact Or.inl (Or.inl h)
      · rcases ihc h with hold | ⟨rfl, bs, rfl, hp⟩
        · exact Or.inl (Or.inr (Or.inl hold))
        · exact Or.inr ⟨rfl, bs, rfl, Or.inr (Or.inl hp)⟩
      · rcases ihs h with hold | ⟨rfl, bs, rfl, hp⟩
        · exact Or.inl (Or.inr (Or.inr hold))
        · exact Or.inr ⟨rfl, bs, rfl, Or.inr (Or.inr hp)⟩

theorem nodes_remove : (f.remove b).nodes.Sublist f.nodes := by
  induction f with
  | nil => exact List.Sublist.refl _
  | cons a children siblings ihc ihs =>
    rw [remove]
    split
    case isTrue h => exact (List.sublist_append_right _ _).cons a
    case isFalse h => exact (ihc.append ihs).cons_cons a

theorem paths_remove (h : (a, as) ∈ (f.remove b).paths above) : (a, as) ∈ f.paths above := by
  induction f generalizing above with
  | nil => exact h
  | cons c children siblings ihc ihs =>
    rw [remove] at h
    simp only [paths, List.mem_cons, List.mem_append]
    split at h
    case isTrue => exact Or.inr (Or.inr h)
    case isFalse =>
      simp only [paths, List.mem_cons, List.mem_append] at h
      rcases h with h | h | h
      · exact Or.inl h
      · exact Or.inr (Or.inl (ihc h))
      · exact Or.inr (Or.inr (ihs h))

end Grow

section Bounds

variable {β : Type*} [Preorder β] {bound : α → Option β} {lim : Option β} {above : List α}
  {f : Forest α}

/-- No node has a bound above the nearest bound over it. -/
def Capped (bound : α → Option β) (lim : Option β) : Forest α → Prop
  | nil => True
  | cons a children siblings => (∀ x ∈ bound a, ∀ l ∈ lim, x ≤ l) ∧
      children.Capped bound ((bound a).or lim) ∧ siblings.Capped bound lim

theorem Capped.congr {bound' : α → Option β} (h : f.Capped bound lim)
    (hb : ∀ a ∈ f.nodes, bound' a = bound a) : f.Capped bound' lim := by
  induction f generalizing lim with
  | nil => trivial
  | cons a children siblings ihc ihs =>
    obtain ⟨ha, hc, hs⟩ := h
    have hself := hb a (by simp [nodes])
    refine ⟨by rwa [hself], ?_, ihs hs fun b hm => hb b (by simp [nodes, hm])⟩
    rw [hself]
    exact ihc hc fun b hm => hb b (by simp [nodes, hm])

/-- The nearest bound is one of those above, and the least. -/
structure Nearest (bound : α → Option β) (above : List α) (lim : Option β) : Prop where
  attained : ∀ l ∈ lim, ∃ b ∈ above, l ∈ bound b
  le : ∀ b ∈ above, ∀ y ∈ bound b, ∃ l ∈ lim, l ≤ y

theorem Nearest.cons {a : α} (h : Nearest bound above lim) (ha : ∀ x ∈ bound a, ∀ l ∈ lim, x ≤ l) :
    Nearest bound (a :: above) ((bound a).or lim) := by
  cases hb : bound a with
  | none =>
    rw [Option.none_or]
    refine ⟨fun l hl => ?_, fun b hm y hy => ?_⟩
    · obtain ⟨b, hm, hl⟩ := h.attained l hl
      exact ⟨b, List.mem_cons_of_mem _ hm, hl⟩
    · rcases List.mem_cons.mp hm with rfl | hm
      · rw [hb] at hy
        exact absurd hy (by simp)
      · exact h.le b hm y hy
  | some x =>
    rw [Option.some_or]
    refine ⟨fun l hl => ⟨a, List.mem_cons_self, by rw [hb]; exact hl⟩, fun b hm y hy => ⟨x, rfl, ?_⟩⟩
    rcases List.mem_cons.mp hm with rfl | hm
    · rw [hb] at hy
      exact (Option.some.inj hy).le
    · obtain ⟨l, hl, hle⟩ := h.le b hm y hy
      exact (ha x (by rw [hb]; rfl) l hl).trans hle

/-- Bounds that respect the nearest one over them respect all of them. -/
theorem capped_iff (h : Nearest bound above lim) : f.Capped bound lim ↔
    ∀ a as, (a, as) ∈ f.paths above → ∀ x ∈ bound a, ∀ b ∈ as, ∀ y ∈ bound b, x ≤ y := by
  induction f generalizing above lim with
  | nil => simp [Capped, paths]
  | cons c children siblings ihc ihs =>
    have hself : (∀ x ∈ bound c, ∀ l ∈ lim, x ≤ l) ↔
        ∀ x ∈ bound c, ∀ b ∈ above, ∀ y ∈ bound b, x ≤ y := by
      constructor
      · intro hle x hx b hb y hy
        obtain ⟨l, hl, hly⟩ := h.le b hb y hy
        exact (hle x hx l hl).trans hly
      · intro hle x hx l hl
        obtain ⟨b, hb, hy⟩ := h.attained l hl
        exact hle x hx b hb l hy
    rw [Capped, ihs h]
    constructor
    · rintro ⟨hc, hchildren, hsiblings⟩ a as hmem
      simp only [paths, List.mem_cons, List.mem_append, Prod.mk.injEq] at hmem
      rcases hmem with ⟨rfl, rfl⟩ | hmem | hmem
      · exact hself.mp hc
      · exact (ihc (h.cons hc)).mp hchildren a as hmem
      · exact hsiblings a as hmem
    · intro hall
      have hc := hself.mpr (hall c above (by simp [paths]))
      refine ⟨hc, (ihc (h.cons hc)).mpr fun a as hmem => hall a as ?_, fun a as hmem => hall a as ?_⟩
      · simp [paths, hmem]
      · simp [paths, hmem]

end Bounds

end Forest

end OperatingSystem
