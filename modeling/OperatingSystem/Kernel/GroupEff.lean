import Mathlib.Order.Bounds.Basic
import OperatingSystem.Kernel.GroupClamps

/-! # Effective clamps of task groups

The iteration that skips the groups below an unchanged one still leaves every
group with the clamps that its parent allows, and finds every group whose clamps
change. So as long as no write overlaps the creation of a group, an effective clamp
is the least of the requests on the way up to the root.
-/

namespace OperatingSystem.Kernel

section Walk

variable {G : Type*} {B : ℕ} [NeZero B] {req req' eff eff' : G → ClampId → UclampSe B}
  {up : Option G} {tg : G} {id : ClampId}

/-- A group has the clamps that it should have below `up`. -/
def Settled (req eff : G → ClampId → UclampSe B) (up : Option G) (tg : G) : Prop :=
  ∀ id, (eff tg id).value = effValue req eff up tg id

omit [NeZero B] in
theorem effValue_congr (hreq : req' tg = req tg) (heff : ∀ q ∈ up, eff' q = eff q) :
    effValue req' eff' up tg = effValue req eff up tg := by
  unfold effValue
  rw [hreq]
  cases up with
  | none => rfl
  | some q =>
    dsimp only
    rw [heff q rfl]

omit [NeZero B] in
theorem effValue_some {q : G} :
    effValue req eff (some q) tg .max = min (req tg .max).value (eff q .max).value ∧
      effValue req eff (some q) tg .min =
        min (min (req tg .min).value (eff q .min).value)
          (min (req tg .max).value (eff q .max).value) := by
  have hcap : ∀ id, (if (eff q id).value < (req tg id).value then (eff q id).value
      else (req tg id).value) = min (req tg id).value (eff q id).value := by
    intro id
    split <;> omega
  exact ⟨hcap .max, congrArg₂ min (hcap .min) (hcap .max)⟩

omit [NeZero B] in
theorem effValue_le (id : ClampId) : effValue req eff up tg id ≤ (req tg id).value := by
  cases up with
  | none =>
    cases id with
    | max => exact le_rfl
    | min => exact Nat.min_le_left _ _
  | some q =>
    cases id with
    | max => exact effValue_some.1.trans_le (min_le_left _ _)
    | min => exact effValue_some.2.trans_le ((min_le_left _ _).trans (min_le_left _ _))

theorem setEffValue_value {u : UclampSe B} {v : ℕ} (hv : v ≤ schedCapacityScale) :
    (setEffValue u v).value = v := by
  unfold setEffValue
  split
  case isTrue h => exact h.symm
  case isFalse => exact Nat.mod_eq_of_lt (lt_of_le_of_lt hv (by decide))

theorem setEffValue_fits {u : UclampSe B} {v : ℕ} (hv : v ≤ schedCapacityScale) (hu : u.Fits) :
    (setEffValue u v).Fits := by
  have hvalue : (setEffValue u v).value = v := setEffValue_value hv
  unfold setEffValue at hvalue ⊢
  split
  case isTrue => exact hu
  case isFalse h =>
    rw [if_neg h] at hvalue
    refine ⟨hvalue.trans_le hv, ?_⟩
    rw [hvalue]

omit [NeZero B] in
theorem changedClamps_eq_nil {old : ClampId → UclampSe B} {v : ClampId → ℕ} :
    changedClamps old v = [] ↔ ∀ id, v id = (old id).value := by
  unfold changedClamps
  rw [List.filter_eq_nil_iff]
  constructor
  · intro h id
    have := h id (by cases id <;> simp)
    simpa using this
  · intro h id _
    simpa using h id

def changedGroup (eff eff' : G → ClampId → UclampSe B) (tg : G) : Option (G × List ClampId) :=
  let clamps := changedClamps (eff tg) fun id => (eff' tg id).value
  if clamps = [] then none else some (tg, clamps)

omit [NeZero B] in
theorem changedGroup_same (h : eff' tg = eff tg) : changedGroup eff eff' tg = none := by
  unfold changedGroup
  dsimp only
  rw [h, if_pos (changedClamps_eq_nil.mpr fun _ => rfl)]

omit [NeZero B] in
theorem changedGroup_congr {eff₁ eff₁' : G → ClampId → UclampSe B} (h : eff₁ tg = eff tg)
    (h' : eff₁' tg = eff' tg) : changedGroup eff₁ eff₁' tg = changedGroup eff eff' tg := by
  unfold changedGroup
  rw [h, h']

variable [DecidableEq G] {f : Forest G}

/-- What the iteration does to the groups `f` below `up`: it leaves them settled, touches no
others, keeps the buckets of the clamps and updates the tasks of exactly the groups whose clamps
change. -/
structure Propagated (req eff : G → ClampId → UclampSe B) (up : Option G) (f : Forest G)
    (r : (G → ClampId → UclampSe B) × List (G × List ClampId)) : Prop where
  settled : f.Each (Settled req r.1) up
  frame : ∀ i, i ∉ f.nodes → r.1 i = eff i
  fits : ∀ i, (∀ id, (eff i id).Fits) → ∀ id, (r.1 i id).Fits
  calls : r.2 = f.nodes.filterMap (changedGroup eff r.1)

omit [NeZero B] [DecidableEq G] in
theorem Settled.congr {u : Option G} (h : Settled req eff u tg) (htg : eff' tg = eff tg)
    (hu : ∀ q ∈ u, eff' q = eff q) : Settled req eff' u tg := by
  intro id
  rw [htg, effValue_congr rfl hu]
  exact h id

section Cons

variable {children siblings : Forest G} {v : ClampId → UclampSe B}
  {r r' : (G → ClampId → UclampSe B) × List (G × List ClampId)}

omit [DecidableEq G] in
/-- A group that keeps its clamps: the groups below it, which have settled, are skipped. -/
theorem Propagated.skip (hnd : (Forest.cons tg children siblings).nodes.Nodup)
    (hup : ∀ q ∈ up, q ∉ (Forest.cons tg children siblings).nodes)
    (htg : ∀ id, effValue req eff up tg id = (eff tg id).value)
    (hc : children.Each (Settled req eff) (some tg)) (hs : Propagated req eff up siblings r) :
    Propagated req eff up (.cons tg children siblings) r := by
  obtain ⟨hout, hcs⟩ := List.nodup_cons.mp hnd
  obtain ⟨-, -, hdis⟩ := List.nodup_append.mp hcs
  simp only [Forest.nodes, List.mem_cons, List.mem_append, not_or] at hup hout
  have hkeep : r.1 tg = eff tg := hs.frame tg hout.2
  have hkeepc : ∀ c ∈ children.nodes, r.1 c = eff c := fun c hc =>
    hs.frame c fun hm => hdis c hc c hm rfl
  have hkeepup : ∀ q ∈ up, r.1 q = eff q := fun q hq => hs.frame q (hup q hq).2.2
  have hself : Settled req eff up tg := fun id => (htg id).symm
  refine ⟨⟨hself.congr hkeep hkeepup, ?_, hs.settled⟩, fun i hi => hs.frame i ?_, hs.fits, ?_⟩
  · refine hc.imp fun u c hc hu hsettled => hsettled.congr (hkeepc c hc) ?_
    intro q hq
    rcases hu with rfl | ⟨q', hq', rfl⟩
    · obtain rfl := Option.some.inj hq
      exact hkeep
    · obtain rfl := Option.some.inj hq
      exact hkeepc _ hq'
  · simp only [Forest.nodes, List.mem_cons, List.mem_append, not_or] at hi
    exact hi.2.2
  · have hnone : children.nodes.filterMap (changedGroup eff r.1) = [] := by
      rw [List.filterMap_eq_nil_iff]
      intro c hc
      exact changedGroup_same (hkeepc c hc)
    rw [Forest.nodes, List.filterMap_cons_none (changedGroup_same hkeep),
      List.filterMap_append, hnone, List.nil_append]
    exact hs.calls

/-- A group whose clamps change, then the groups below it, then its siblings. -/
theorem Propagated.descend (hnd : (Forest.cons tg children siblings).nodes.Nodup)
    (hup : ∀ q ∈ up, q ∉ (Forest.cons tg children siblings).nodes)
    (hv : ∀ id, (v id).value = effValue req eff up tg id)
    (hfits : (∀ id, (eff tg id).Fits) → ∀ id, (v id).Fits)
    (hchanged : changedClamps (eff tg) (effValue req eff up tg) ≠ [])
    (hc : Propagated req (Function.update eff tg v) (some tg) children r)
    (hs : Propagated req r.1 up siblings r') :
    Propagated req eff up (.cons tg children siblings)
      (r'.1, (tg, changedClamps (eff tg) (effValue req eff up tg)) :: (r.2 ++ r'.2)) := by
  obtain ⟨hout, hcs⟩ := List.nodup_cons.mp hnd
  obtain ⟨-, -, hdis⟩ := List.nodup_append.mp hcs
  simp only [Forest.nodes, List.mem_cons, List.mem_append, not_or] at hup hout
  have hself : r'.1 tg = v := by
    rw [hs.frame tg hout.2, hc.frame tg hout.1, Function.update_self]
  have hlast : ∀ c ∈ children.nodes, r'.1 c = r.1 c := fun c hm =>
    hs.frame c fun hm' => hdis c hm c hm' rfl
  have hfirst : ∀ c, c ≠ tg → c ∉ children.nodes → r.1 c = eff c := fun c hne hm => by
    rw [hc.frame c hm, Function.update_of_ne hne]
  have hkeepup : ∀ q ∈ up, r'.1 q = eff q := fun q hq => by
    rw [hs.frame q (hup q hq).2.2, hfirst q (hup q hq).1 (hup q hq).2.1]
  refine ⟨⟨fun id => ?_, ?_, hs.settled⟩, fun i hi => ?_, fun i hi => ?_, ?_⟩
  · dsimp only
    rw [hself, effValue_congr rfl hkeepup, hv id]
  · refine hc.settled.imp fun u c hm hu hsettled => hsettled.congr (hlast c hm) ?_
    intro q hq
    rcases hu with rfl | ⟨q', hq', rfl⟩
    · obtain rfl := Option.some.inj hq
      exact hs.frame _ hout.2
    · obtain rfl := Option.some.inj hq
      exact hlast _ hq'
  · simp only [Forest.nodes, List.mem_cons, List.mem_append, not_or] at hi
    dsimp only
    rw [hs.frame i hi.2.2, hfirst i hi.1 hi.2.1]
  · refine hs.fits i (hc.fits i ?_)
    rcases eq_or_ne i tg with rfl | hne
    · rw [Function.update_self]
      exact hfits hi
    · rwa [Function.update_of_ne hne]
  · have hvalues : (fun id => (r'.1 tg id).value) = effValue req eff up tg := by
      funext id
      rw [hself, hv id]
    have htg : changedGroup eff r'.1 tg =
        some (tg, changedClamps (eff tg) (effValue req eff up tg)) := by
      unfold changedGroup
      rw [hvalues]
      exact if_neg hchanged
    have hcalls : children.nodes.filterMap (changedGroup eff r'.1) = r.2 := by
      rw [hc.calls]
      refine List.filterMap_congr fun c hm => changedGroup_congr ?_ (hlast c hm)
      refine (Function.update_of_ne ?_ _ _).symm
      rintro rfl
      exact hout.1 hm
    have hcalls' : siblings.nodes.filterMap (changedGroup eff r'.1) = r'.2 := by
      rw [hs.calls]
      refine List.filterMap_congr fun c hm => changedGroup_congr (hfirst c ?_ ?_).symm rfl
      · rintro rfl
        exact hout.2 hm
      · exact fun hm' => hdis c hm' c hm rfl
    rw [Forest.nodes, List.filterMap_cons_some htg, List.filterMap_append, hcalls, hcalls']

end Cons

theorem cpuUtilUpdateEff_spec (hnd : f.nodes.Nodup) (hup : ∀ q ∈ up, q ∉ f.nodes)
    (hreq : ∀ g ∈ f.nodes, ∀ id, (req g id).value ≤ schedCapacityScale)
    (hdeep : f.Deep (Settled req eff)) :
    Propagated req eff up f (cpuUtilUpdateEff req up f eff) := by
  induction f generalizing up eff with
  | nil => exact ⟨trivial, fun _ _ => rfl, fun _ h => h, rfl⟩
  | cons tg children siblings ihc ihs =>
    obtain ⟨htg, hcs⟩ := List.nodup_cons.mp hnd
    obtain ⟨hndc, hnds, hdis⟩ := List.nodup_append.mp hcs
    obtain ⟨hdeepc, hdeeps⟩ := hdeep
    simp only [List.mem_append, not_or] at htg
    have hv : ∀ id, effValue req eff up tg id ≤ schedCapacityScale := fun id =>
      (effValue_le id).trans (hreq tg (by simp [Forest.nodes]) id)
    have hups : ∀ q ∈ up, q ∉ siblings.nodes := fun q hq hm =>
      hup q hq (by simp [Forest.nodes, hm])
    have hreqc : ∀ g ∈ children.nodes, ∀ id, (req g id).value ≤ schedCapacityScale :=
      fun g hg => hreq g (by simp [Forest.nodes, hg])
    have hreqs : ∀ g ∈ siblings.nodes, ∀ id, (req g id).value ≤ schedCapacityScale :=
      fun g hg => hreq g (by simp [Forest.nodes, hg])
    rw [cpuUtilUpdateEff]
    dsimp only
    split
    case isTrue hnil =>
      have hsame := changedClamps_eq_nil.mp hnil
      have heff : (Function.update eff tg fun id =>
          setEffValue (eff tg id) (effValue req eff up tg id)) = eff := by
        rw [Function.update_eq_self_iff]
        funext id
        exact if_pos (hsame id)
      rw [heff]
      exact Propagated.skip hnd hup hsame hdeepc (ihs hnds hups hreqs hdeeps)
    case isFalse hne =>
      generalize hw : (fun id => setEffValue (eff tg id) (effValue req eff up tg id)) = w
      have hold : ∀ c, c ≠ tg → Function.update eff tg w c = eff c := fun c hc =>
        Function.update_of_ne hc _ _
      have hdeepc' : children.Deep (Settled req (Function.update eff tg w)) := by
        refine hdeepc.deep.imp fun q c hc hq hsettled => hsettled.congr (hold c ?_) ?_
        · rintro rfl
          exact htg.1 hc
        · intro q' hq'
          obtain rfl := Option.some.inj hq'
          exact hold q fun he => htg.1 (he ▸ hq)
      have hc : Propagated req _ (some tg) children _ := ihc hndc
        (fun q hq hm => htg.1 (Option.some.inj hq ▸ hm)) hreqc hdeepc'
      have hdeeps' : siblings.Deep (Settled req
          (cpuUtilUpdateEff req (some tg) children (Function.update eff tg w)).1) := by
        have hkeep : ∀ c ∈ siblings.nodes, (cpuUtilUpdateEff req (some tg) children
            (Function.update eff tg w)).1 c = eff c := by
          intro c hm
          rw [hc.frame c fun hm' => hdis c hm' c hm rfl, hold c fun he => htg.2 (he ▸ hm)]
        refine hdeeps.imp fun q c hm hq hsettled => hsettled.congr (hkeep c hm) ?_
        intro q' hq'
        obtain rfl := Option.some.inj hq'
        exact hkeep q hq
      refine Propagated.descend hnd hup (fun id => ?_) (fun hfits id => ?_) hne hc
        (ihs hnds hups hreqs hdeeps')
      · rw [← hw]
        exact setEffValue_value (hv id)
      · rw [← hw]
        exact setEffValue_fits (hv id) (hfits id)

end Walk

namespace GroupClamps

variable {G : Type*} {B : ℕ} [NeZero B]

/-- The requests are utilizations, and the effective clamps are in their buckets. -/
structure Bounded (m : GroupClamps G B) : Prop where
  req : ∀ g ∈ m.groups.tree.nodes, ∀ id, (m.req g id).value ≤ schedCapacityScale
  fits : ∀ g ∈ m.groups.tree.nodes, ∀ id, (m.eff g id).Fits

structure Effective (m : GroupClamps G B) : Prop extends Bounded m where
  settled : m.groups.tree.Each (Settled m.req m.eff) none

/-- What an update of clamps under the lock does: it leaves all groups settled and updates the tasks
of exactly the groups whose clamps change. -/
structure Updated (m m' : GroupClamps G B) (calls : List (G × List ClampId)) : Prop where
  effective : m'.Effective
  groups : m'.groups = m.groups
  stage : m'.stage = m.stage
  calls : calls = m'.groups.tree.nodes.filterMap (changedGroup m.eff m'.eff)

/-- What a group below `up` has in its stage. A group gets groups below it only once it is live. -/
def Standing (req eff : G → ClampId → UclampSe B) (stage : G → Stage) (up : Option G) (tg : G) :
    Prop :=
  (∀ q ∈ up, (stage q).isLive = true) ∧
    match stage tg with
    | .linked => True
    | .computed v => v = effValue req eff up tg
    | .live => Settled req eff up tg

/-- What holds of the groups in every state of a quiet run. -/
structure Kept (m : GroupClamps G B) : Prop extends Bounded m where
  standing : m.groups.tree.Each (Standing m.req m.eff m.stage) none

variable [DecidableEq G] {m m' : GroupClamps G B} {tg g : G} {as : List G}
  {req : G → ClampId → UclampSe B} {calls : List (G × List ClampId)}
  {a : GroupClampAction G B}

theorem updateEff_updated (hbut : m.groups.tree.Each
      (fun up g => g ≠ tg → Settled m.req m.eff up g) none) (hb : m.Bounded)
    (htg : tg ∈ m.groups.tree.nodes) (h : m.updateEff tg = (m', calls)) : Updated m m' calls := by
  have hplaces : m.groups.tree.Places m.groups.place none :=
    Forest.places_locate m.groups.nodup
  have hnd : m.groups.tree.nodes.Nodup := m.groups.nodup
  have hup : ∀ q ∈ (none : Option G), q ∉ m.groups.tree.nodes := fun q hq => absurd hq (by simp)
  obtain ⟨p, hp⟩ : ∃ p, m.groups.place tg = some p := by
    rw [← Option.ne_none_iff_exists', Ne, TaskGroups.place, Forest.locate_eq_none]
    exact not_not.mpr htg
  obtain ⟨-, hout, hndc⟩ := hplaces.below hnd htg hp
  have hself : tg ∈ (Forest.subtree tg p).nodes := by simp [Forest.nodes_subtree]
  have hbelow := Forest.Each.below hbut hplaces htg hp
  have hdeep : (Forest.subtree tg p).Deep (Settled m.req m.eff) := by
    refine ⟨hbelow.2.1.imp fun u c hc _ hsettled => hsettled ?_, trivial⟩
    rintro rfl
    exact hout hc
  have hndt : (Forest.subtree tg p).nodes.Nodup := by
    rw [Forest.nodes_subtree]
    exact List.nodup_cons.mpr ⟨hout, hndc⟩
  have hr : Propagated m.req m.eff p.parent (.subtree tg p) _ :=
    cpuUtilUpdateEff_spec hndt (hplaces.parent_notMem hnd hup htg hp)
      (fun g hg => hb.req g ((hplaces.subtree_infix htg hp).subset hg)) hdeep
  have hupdate : m.updateEff tg = ({ m with
      eff := (cpuUtilUpdateEff m.req p.parent (.subtree tg p) m.eff).1 },
      (cpuUtilUpdateEff m.req p.parent (.subtree tg p) m.eff).2) := by
    rw [updateEff, hp]
  rw [hupdate] at h
  generalize cpuUtilUpdateEff m.req p.parent (.subtree tg p) m.eff = r at h hr
  obtain ⟨rfl, rfl⟩ := Prod.mk.inj h
  refine ⟨⟨⟨hb.req, fun g hg => hr.fits g (hb.fits g hg)⟩, ?_⟩, rfl, rfl, ?_⟩
  · refine Forest.Each.splice hbut hplaces hnd hup htg hp hr.settled fun u a ha hu hsettled => ?_
    refine Settled.congr (hsettled fun he => ha (he ▸ hself)) (hr.frame a ha) fun q hq => ?_
    exact hr.frame q (hu q hq)
  · rw [hr.calls]
    refine (hplaces.filterMap_subtree hnd htg hp fun a ha => ?_).symm
    exact changedGroup_same (hr.frame a ha)

theorem Effective.request (h : m.Effective) (htg : tg ∈ m.groups.tree.nodes)
    (hreq : ∀ g, g ≠ tg → req g = m.req g) (hle : ∀ id, (req tg id).value ≤ schedCapacityScale)
    (hu : updateEff { m with req } tg = (m', calls)) : Updated m m' calls := by
  have hu' : Updated { m with req } m' calls := by
    refine updateEff_updated (m := { m with req }) ?_ ⟨fun g hg id => ?_, h.fits⟩ htg hu
    · refine h.settled.imp fun u g _ _ hsettled hg id => ?_
      rw [effValue_congr (hreq g hg) fun _ _ => rfl]
      exact hsettled id
    · rcases eq_or_ne g tg with rfl | hne
      · exact hle id
      · dsimp only
        rw [hreq g hne]
        exact h.req g hg id
  exact ⟨hu'.effective, hu'.groups, hu'.stage, hu'.calls⟩

theorem capacityFromPercent_le {percent : Option (BitVec 64)} {util : ℕ}
    (h : capacityFromPercent percent = some util) : util ≤ schedCapacityScale := by
  unfold capacityFromPercent at h
  split at h
  case h_1 =>
    obtain rfl := Option.some.inj h
    exact le_rfl
  case h_2 p =>
    split at h
    case isTrue => cases h
    case isFalse hp =>
      obtain rfl := Option.some.inj h
      unfold schedCapacityScale
      omega

theorem Effective.write {id : ClampId} {percent : Option (BitVec 64)} (h : m.Effective)
    (htg : tg ∈ m.groups.tree.nodes) (hw : m.cpuUclampWrite tg id percent = some (m', calls)) :
    Updated m m' calls := by
  obtain ⟨util, hutil, heq⟩ := Option.map_eq_some_iff.mp hw
  have hle := capacityFromPercent_le hutil
  dsimp only at heq
  split at heq
  case isTrue =>
    refine h.request htg (fun g hg => Function.update_of_ne hg _ _) (fun i => ?_) heq
    rw [Function.update_self]
    rcases eq_or_ne i id with rfl | hne
    · rw [Function.update_self]
      exact (uclampSeSet_fits hle).1
    · rw [Function.update_of_ne hne]
      exact h.req tg htg i
  case isFalse => exact h.request htg (fun _ _ => rfl) (h.req tg htg) heq

theorem Effective.sysctl {utilMin utilMax : ℕ} (h : m.Effective) (hmin : utilMin ≤ utilMax)
    (hmax : utilMax ≤ schedCapacityScale)
    (hu : m.uclampUpdateRootTg utilMin utilMax = (m', calls)) : Updated m m' calls := by
  refine h.request List.mem_cons_self (fun g hg => Function.update_of_ne hg _ _) (fun id => ?_) hu
  rw [Function.update_self]
  cases id with
  | min => exact (uclampSeSet_fits (hmin.trans hmax)).1
  | max => exact (uclampSeSet_fits hmax).1

omit [DecidableEq G] in
theorem Kept.path (h : m.Kept) (hpath : (g, as) ∈ m.groups.tree.paths []) :
    Standing m.req m.eff m.stage as.head? g :=
  Forest.each_top_iff.mp h.standing g as hpath

omit [NeZero B] [DecidableEq G] in
theorem Standing.settled {stage : G → Stage} {eff : G → ClampId → UclampSe B} {up : Option G}
    (h : Standing req eff stage up g) (hlive : (stage g).isLive = true) :
    Settled req eff up g := by
  obtain ⟨-, h⟩ := h
  rwa [Stage.eq_live hlive] at h

omit [NeZero B] [DecidableEq G] in
theorem Standing.congr {stage stage' : G → Stage} {eff eff' req' : G → ClampId → UclampSe B}
    {up : Option G} (h : Standing req eff stage up g) (hreq : req' g = req g) (heff : eff' g = eff g)
    (hstage : stage' g = stage g) (hup : ∀ q ∈ up, eff' q = eff q ∧ stage' q = stage q) :
    Standing req' eff' stage' up g := by
  have hvalue : effValue req' eff' up g = effValue req eff up g :=
    effValue_congr hreq fun q hq => (hup q hq).1
  refine ⟨fun q hq => (hup q hq).2 ▸ h.1 q hq, ?_⟩
  rw [hstage, hvalue, Settled, hvalue, heff]
  exact h.2

omit [DecidableEq G] in
theorem Kept.effective (h : m.Kept)
    (hlive : ∀ g ∈ m.groups.tree.nodes, (m.stage g).isLive = true) : m.Effective :=
  ⟨h.toBounded, h.standing.imp fun _ g hg _ hs => hs.settled (hlive g hg)⟩

omit [DecidableEq G] in
theorem Effective.kept (h : m.Effective)
    (hlive : ∀ g ∈ m.groups.tree.nodes, (m.stage g).isLive = true) : m.Kept := by
  refine ⟨h.toBounded, h.settled.imp fun up g hg hup hs => ⟨fun q hq => ?_, ?_⟩⟩
  · rcases hup with rfl | ⟨q', hq', rfl⟩
    · exact absurd hq (by simp)
    · obtain rfl := Option.some.inj hq
      exact hlive _ hq'
  · rw [Stage.eq_live (hlive g hg)]
    exact hs

omit [DecidableEq G] in
theorem Updated.kept (h : Updated m m' calls)
    (hlive : ∀ g ∈ m.groups.tree.nodes, (m.stage g).isLive = true) : m'.Kept := by
  refine h.effective.kept fun g hg => ?_
  rw [h.groups] at hg
  rw [h.stage]
  exact hlive g hg

theorem Kept.online {parent : G} {eff : ClampId → UclampSe B} (h : m.Kept)
    (heff : ∀ id, (eff id).Fits) (hlive : (m.stage parent).isLive = true)
    (hon : m.schedOnlineGroup tg parent eff = some m') :
    m'.Kept ∧ m'.eff = Function.update m.eff tg eff := by
  obtain ⟨groups, hgroups, rfl⟩ := Option.map_eq_some_iff.mp hon
  obtain ⟨-, hparent, hfresh, htree⟩ := TaskGroups.schedOnlineGroup_tree hgroups
  have hnodes : ∀ g, g ∈ groups.tree.nodes ↔ g = tg ∨ g ∈ m.groups.tree.nodes := by
    intro g
    rw [htree, (Forest.nodes_insert hparent m.groups.nodup).mem_iff, List.mem_cons]
  have hold : ∀ g ∈ m.groups.tree.nodes, g ≠ tg := by
    rintro g hg rfl
    exact hfresh hg
  refine ⟨⟨⟨fun g hg id => ?_, fun g hg id => ?_⟩, ?_⟩, rfl⟩
  · dsimp only
    rcases (hnodes g).mp hg with rfl | hm
    · rw [Function.update_self]
      exact (uclampSeSet_fits (uclampNone_le id)).1
    · rw [Function.update_of_ne (hold g hm)]
      exact h.req g hm id
  · dsimp only
    rcases (hnodes g).mp hg with rfl | hm
    · rw [Function.update_self]
      exact heff id
    · rw [Function.update_of_ne (hold g hm)]
      exact h.fits g hm id
  · rw [Forest.each_top_iff]
    dsimp only
    rw [htree]
    intro g as hpath
    rcases Forest.mem_paths_insert hpath with hpath | ⟨rfl, bs, rfl, -⟩
    · have hg := hold g (Forest.mem_nodes_of_path hpath)
      refine (h.path hpath).congr (Function.update_of_ne hg _ _) (Function.update_of_ne hg _ _)
        (Function.update_of_ne hg _ _) fun q hq => ?_
      have hmem := Forest.mem_nodes_of_above hpath (List.mem_of_mem_head? hq)
      have hq' := hold q (hmem.resolve_left List.not_mem_nil)
      exact ⟨Function.update_of_ne hq' _ _, Function.update_of_ne hq' _ _⟩
    · refine ⟨fun q hq => ?_, ?_⟩
      · obtain rfl := Option.some.inj hq
        rwa [Function.update_of_ne (hold _ hparent)]
      · rw [Function.update_self]
        trivial

omit [NeZero B] [DecidableEq G] in
/-- A group whose creation has not ended is above no other group. -/
theorem Standing.ne_of_mem {stage : G → Stage} {eff : G → ClampId → UclampSe B} {up : Option G}
    (h : Standing req eff stage up g) (hlive : (stage tg).isLive = false) {q : G} (hq : q ∈ up) :
    q ≠ tg := by
  rintro rfl
  exact absurd (h.1 q hq) (by simp [hlive])

theorem Kept.computeEff (h : m.Kept) (hc : m.computeEff tg = some m') :
    m'.Kept ∧ m'.groups = m.groups ∧ m'.eff = m.eff := by
  unfold GroupClamps.computeEff at hc
  split at hc
  case h_2 => cases hc
  case h_1 hs =>
    obtain rfl := Option.some.inj hc
    have hnot : (m.stage tg).isLive = false := by rw [hs]; rfl
    refine ⟨⟨⟨h.req, h.fits⟩, ?_⟩, rfl, rfl⟩
    rw [Forest.each_top_iff]
    dsimp only
    intro g as hpath
    have hold := h.path hpath
    have hup : ∀ q ∈ as.head?, Function.update m.stage tg (.computed
        (effValue m.req m.eff ((m.groups.place tg).bind Place.parent) tg)) q = m.stage q :=
      fun q hq => Function.update_of_ne (hold.ne_of_mem hnot hq) _ _
    rcases eq_or_ne g tg with rfl | hg
    · have hparent : (m.groups.place g).bind Place.parent = as.head? :=
        m.groups.parent_of_path hpath
      refine ⟨fun q hq => ?_, ?_⟩
      · rw [hup q hq]
        exact hold.1 q hq
      · rw [Function.update_self, hparent]
    · exact hold.congr rfl rfl (Function.update_of_ne hg _ _) fun q hq => ⟨rfl, hup q hq⟩

theorem Kept.storeEff (h : m.Kept) (htg : tg ∈ m.groups.tree.nodes)
    (hc : m.storeEff tg = some (m', calls)) : m'.Kept ∧ m'.groups = m.groups ∧
      calls = m'.groups.tree.nodes.filterMap (changedGroup m.eff m'.eff) := by
  unfold GroupClamps.storeEff at hc
  split at hc
  case h_2 => cases hc
  case h_1 v hs =>
    have hnot : (m.stage tg).isLive = false := by rw [hs]; rfl
    obtain ⟨as₀, hpath₀⟩ := Forest.exists_path htg
    have hv : v = effValue m.req m.eff as₀.head? tg := by
      have hstanding := (h.path hpath₀).2
      rwa [hs] at hstanding
    have hle : ∀ id, v id ≤ schedCapacityScale := fun id => by
      rw [hv]
      exact (effValue_le id).trans (h.req tg htg id)
    obtain ⟨rfl, rfl⟩ := Prod.mk.inj (Option.some.inj hc)
    generalize hw : (fun id => setEffValue (m.eff tg id) (v id)) = w
    have hvalue : ∀ id, (w id).value = v id := fun id => by
      rw [← hw]
      exact setEffValue_value (hle id)
    have hother : ∀ g, g ≠ tg → Function.update m.eff tg w g = m.eff g := fun g hg =>
      Function.update_of_ne hg _ _
    refine ⟨⟨⟨h.req, fun g hg id => ?_⟩, ?_⟩, rfl, ?_⟩
    · dsimp only
      rcases eq_or_ne g tg with rfl | hne
      · rw [Function.update_self, ← hw]
        exact setEffValue_fits (hle id) (h.fits g htg id)
      · rw [hother g hne]
        exact h.fits g hg id
    · rw [Forest.each_top_iff]
      dsimp only
      intro g as hpath
      have hold := h.path hpath
      have hup : ∀ q ∈ as.head?, Function.update m.eff tg w q = m.eff q ∧
          Function.update m.stage tg .live q = m.stage q := fun q hq =>
        ⟨hother q (hold.ne_of_mem hnot hq), Function.update_of_ne (hold.ne_of_mem hnot hq) _ _⟩
      rcases eq_or_ne g tg with rfl | hg
      · refine ⟨fun q hq => ?_, ?_⟩
        · rw [(hup q hq).2]
          exact hold.1 q hq
        · rw [Function.update_self]
          intro id
          have hcomputed := hold.2
          rw [hs] at hcomputed
          dsimp only at hcomputed
          rw [Function.update_self, hvalue, effValue_congr rfl fun q hq => (hup q hq).1,
            ← hcomputed]
      · exact hold.congr rfl (hother g hg) (Function.update_of_ne hg _ _) hup
    · have hgroup : changedGroup m.eff (Function.update m.eff tg w) tg =
          if changedClamps (m.eff tg) v = [] then none else some (tg, changedClamps (m.eff tg) v) := by
        unfold changedGroup
        rw [Function.update_self]
        simp only [hvalue]
      have hsame : ∀ g, g ≠ tg → changedGroup m.eff (Function.update m.eff tg w) g = none :=
        fun g hg => changedGroup_same (hother g hg)
      rw [m.groups.filterMap_single htg hsame, hgroup]
      split <;> rfl

theorem Kept.offline (h : m.Kept) :
    Kept { m with groups := m.groups.schedOfflineGroup tg } := by
  have hnodes : ∀ g ∈ (m.groups.schedOfflineGroup tg).tree.nodes, g ∈ m.groups.tree.nodes := by
    intro g hg
    obtain ⟨as, hpath⟩ := Forest.exists_path hg
    exact Forest.mem_nodes_of_path (TaskGroups.schedOfflineGroup_paths hpath)
  refine ⟨⟨fun g hg => h.req g (hnodes g hg), fun g hg => h.fits g (hnodes g hg)⟩, ?_⟩
  rw [Forest.each_top_iff]
  intro g as hpath
  exact h.path (TaskGroups.schedOfflineGroup_paths hpath)

omit [DecidableEq G] in
theorem Booted.kept (h : m.Booted) : m.Kept := by
  have hnodes : ∀ g ∈ m.groups.tree.nodes, g = m.groups.rootTaskGroup := by
    intro g hg
    simpa [TaskGroups.tree, h.children, Forest.nodes] using hg
  have hsettled : Settled m.req m.eff none m.groups.rootTaskGroup := by
    intro id
    rw [h.eff id, h.req id]
    cases id <;> simp [effValue, h.req]
  have heff : m.Effective := by
    refine ⟨⟨fun g hg id => ?_, fun g hg id => ?_⟩, ?_⟩
    · rw [hnodes g hg, h.req id]
    · rw [hnodes g hg]
      exact h.fits id
    · rw [TaskGroups.tree, h.children]
      exact ⟨hsettled, trivial, trivial⟩
  refine heff.kept fun g _ => ?_
  rw [h.live]
  rfl

/-- The clamps before the update: a new group has copied them. -/
def copied (m : GroupClamps G B) : GroupClampAction G B → G → ClampId → UclampSe B
  | .online tg _ eff => Function.update m.eff tg eff
  | _ => m.eff

omit [NeZero B] [DecidableEq G] in
theorem calls_same {eff eff' : G → ClampId → UclampSe B} {groups : List G} (h : eff' = eff) :
    ([] : List (G × List ClampId)) = groups.filterMap (changedGroup eff eff') := by
  symm
  rw [List.filterMap_eq_nil_iff]
  exact fun g _ => changedGroup_same (by rw [h])

theorem Kept.act (h : m.Kept) (hq : m.Quiet a) (hact : m.act a = some (m', calls)) :
    m'.Kept ∧ calls = m'.groups.tree.nodes.filterMap (changedGroup (m.copied a) m'.eff) := by
  cases a with
  | online tg parent eff =>
    obtain ⟨⟨hmin, hmax, hlive⟩, hmap⟩ := Option.ite_none_right_eq_some.mp hact
    obtain ⟨n, hon, heq⟩ := Option.map_eq_some_iff.mp hmap
    obtain ⟨rfl, rfl⟩ := Prod.mk.inj heq
    have hfits : ∀ id, (eff id).Fits := fun id => by
      cases id with
      | min => exact hmin
      | max => exact hmax
    obtain ⟨hkept, heff⟩ := h.online hfits hlive hon
    exact ⟨hkept, calls_same heff⟩
  | computeEff tg =>
    obtain ⟨-, hmap⟩ := Option.ite_none_right_eq_some.mp hact
    obtain ⟨n, hc, heq⟩ := Option.map_eq_some_iff.mp hmap
    obtain ⟨rfl, rfl⟩ := Prod.mk.inj heq
    obtain ⟨hkept, -, heff⟩ := h.computeEff hc
    exact ⟨hkept, calls_same heff⟩
  | storeEff tg =>
    obtain ⟨htg, hc⟩ := Option.ite_none_right_eq_some.mp hact
    obtain ⟨hkept, -, hcalls⟩ := h.storeEff htg hc
    exact ⟨hkept, hcalls⟩
  | offline tg =>
    obtain ⟨-, heq⟩ := guarded hact
    obtain ⟨rfl, rfl⟩ := Prod.mk.inj heq
    exact ⟨h.offline, calls_same rfl⟩
  | write tg id percent =>
    obtain ⟨⟨htg, -⟩, hw⟩ := Option.ite_none_right_eq_some.mp hact
    have hu := (h.effective hq).write htg hw
    exact ⟨hu.kept hq, hu.calls⟩
  | sysctl utilMin utilMax =>
    obtain ⟨⟨hmin, hmax⟩, hs⟩ := guarded hact
    have hu := (h.effective hq).sysctl hmin hmax hs
    exact ⟨hu.kept hq, hu.calls⟩

theorem reachable_kept (h : (quietClamps G B).Reachable m) : m.Kept := by
  refine h.invariant (fun _ => Booted.kept) ?_
  rintro m m' hm ⟨a, calls, hq, hact⟩
  exact (hm.act hq hact).1

section Path

variable {r : G → ClampId → ℕ}

end Path

def rootClamps : GroupClamps (Option Bool) 20 where
  groups := .ofRoot none
  req _ _ := ⟨1024, uclampBucketId 1024, false, false⟩
  eff _ _ := ⟨1024, uclampBucketId 1024, false, false⟩
  stage _ := .live

theorem rootClamps_booted : rootClamps.Booted :=
  ⟨rfl, fun _ => rfl, fun _ => rfl, fun _ => rfl, fun _ => ⟨le_rfl, rfl⟩⟩

def after (m : GroupClamps G B) : List (GroupClampAction G B) → Option (GroupClamps G B)
  | [] => some m
  | a :: as => (m.act a).bind fun r => r.1.after as

def creation : List (GroupClampAction (Option Bool) 20) :=
  [.online (some true) none (rootClamps.eff none), .computeEff (some true), .storeEff (some true)]

theorem reachable_after {S : System (GroupClamps G B)} {as : List (GroupClampAction G B)}
    (hS : ∀ a ∈ as, ∀ m r, m.act a = some r → S.step m r.1) (h : S.Reachable m)
    (has : m.after as = some m') : S.Reachable m' := by
  induction as generalizing m with
  | nil =>
    obtain rfl := Option.some.inj has
    exact h
  | cons a as ih =>
    obtain ⟨r, hr, has⟩ := Option.bind_eq_some_iff.mp has
    refine ih (fun b hb => hS b (List.mem_cons_of_mem a hb)) (h.tail ?_) has
    exact hS a List.mem_cons_self m r hr

def halved : GroupClamps (Option Bool) 20 :=
  ((rootClamps.act (.sysctl 512 512)).get (by decide)).1

def twoClamps : GroupClamps (Option Bool) 20 := (halved.after creation).get (by decide)

theorem twoClamps_reachable : (quietClamps (Option Bool) 20).Reachable twoClamps := by
  have hroot : (quietClamps (Option Bool) 20).Reachable rootClamps := .init rootClamps_booted
  have hhalved : (quietClamps (Option Bool) 20).Reachable halved :=
    hroot.tail ⟨.sysctl 512 512, _, fun _ _ => rfl, (Option.some_get (by decide)).symm⟩
  refine reachable_after ?_ hhalved (Option.some_get (by decide)).symm
  intro a ha m r hr
  refine ⟨a, r.2, ?_, hr⟩
  simp only [creation, List.mem_cons, List.not_mem_nil, or_false] at ha
  rcases ha with rfl | rfl | rfl <;> trivial

/-- A write between the steps of a creation: the new group stores the clamps that it has computed
before, and is left above the limit of its parent. -/
theorem eff_overlapped : ∃ m, (groupClamps (Option Bool) 20).Reachable m ∧
    (some true, [none]) ∈ m.groups.tree.paths [] ∧
    (∀ g ∈ m.groups.tree.nodes, (m.stage g).isLive = true) ∧
    (m.eff none .max).value = 512 ∧ (m.eff (some true) .max).value = 1024 := by
  have hroot : (groupClamps (Option Bool) 20).Reachable rootClamps := .init rootClamps_booted
  obtain ⟨m, hm⟩ := Option.isSome_iff_exists.mp (show (rootClamps.after
    [.online (some true) none (rootClamps.eff none), .computeEff (some true), .sysctl 512 512,
      .storeEff (some true)]).isSome = true by decide)
  refine ⟨m, reachable_after (fun a _ m r hr => ⟨a, r.2, hr⟩) hroot hm, ?_⟩
  obtain rfl := Option.some.inj (hm.symm.trans (Option.some_get (by decide)).symm)
  decide

/-- In every run without writes during a creation, the tasks of exactly the groups whose effective
clamps change are updated, those of a group once, for the clamps that change, and before those of
the groups below it. -/
theorem act_calls (h : (quietClamps G B).Reachable m) (hq : m.Quiet a)
    (hact : m.act a = some (m', calls)) :
    calls = m'.groups.tree.nodes.filterMap (changedGroup (m.copied a) m'.eff) :=
  ((reachable_kept h).act hq hact).2

/-- A limit of a quarter reaches both groups. -/
theorem act_calls_twoClamps : ∃ m, twoClamps.act (.sysctl 128 256) =
      some (m, [(none, [.min, .max]), (some true, [.max])]) ∧
    [(none, [.min, .max]), (some true, [.max])] = m.groups.tree.nodes.filterMap
      (changedGroup (twoClamps.copied (.sysctl 128 256)) m.eff) := by
  have hact : twoClamps.act (.sysctl 128 256) =
      some ((twoClamps.act (.sysctl 128 256)).get (by decide)) := (Option.some_get _).symm
  have hquiet : twoClamps.Quiet (.sysctl 128 256) := by
    change ∀ g ∈ twoClamps.groups.tree.nodes, (twoClamps.stage g).isLive = true
    decide
  exact ⟨_, hact, act_calls twoClamps_reachable hquiet hact⟩

end GroupClamps

end OperatingSystem.Kernel
