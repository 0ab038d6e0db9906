import Mathlib.Data.BitVec
import OperatingSystem.Kernel.Bandwidth

/-! # Shares of task groups

On the legacy hierarchy no group has a larger share than a limited group above it,
in every run. The walk decides this from the quotas alone, whatever earlier walks
left behind. On the default hierarchy the walk takes a minimum with the mark for
no limit, which is the least signed number, and so decides nothing.
-/

namespace OperatingSystem.Kernel

/-- The share of a period that a quota allows, in units of `bwUnit`. -/
def share (period quota : BitVec 64) : Option ℕ :=
  if quota = runtimeInf then none
  else some (quota.toNat / 1000 * 2 ^ 20 / (period.toNat / 1000))

/-- How `hierarchical_quota` records a share. -/
def recorded : Option ℕ → BitVec 64
  | none => runtimeInf
  | some n => BitVec.ofNat 64 n

section Ratio

variable {period quota : BitVec 64} {l : Option ℕ} {n k : ℕ}

theorem BandwidthInRange.bounds (h : BandwidthInRange period quota) :
    1000000 ≤ period.toNat ∧ period.toNat ≤ 1000000000 ∧
      (quota ≠ runtimeInf → 1000000 ≤ quota.toNat ∧ quota.toNat ≤ (2 ^ 44 - 1) * 1000) := by
  obtain ⟨hmin, hmax, hrun⟩ := h
  simp only [BitVec.lt_def, minCfsQuotaPeriod, maxCfsQuotaPeriod, maxCfsRuntime, maxBw, bwShift,
    nsecPerUsec, not_or, not_lt, not_and] at hmin hmax hrun
  refine ⟨?_, ?_, fun hq => ⟨?_, ?_⟩⟩
  · simpa using hmin.2
  · simpa using hmax
  · simpa using hmin.1
  · simpa using hrun hq

theorem share_lt (h : BandwidthInRange period quota) (hn : share period quota = some n) :
    n < 2 ^ 63 := by
  unfold share at hn
  split at hn
  case isTrue => cases hn
  case isFalse hq =>
    obtain ⟨hp, -, hb⟩ := h.bounds
    obtain ⟨-, hle⟩ := hb hq
    obtain rfl := Option.some.inj hn
    have hpos : 1 ≤ period.toNat / 1000 := by omega
    calc quota.toNat / 1000 * 2 ^ 20 / (period.toNat / 1000)
        ≤ (2 ^ 44 - 1) * 2 ^ 20 / 1000 := by
          refine Nat.div_le_div (Nat.mul_le_mul_right _ ?_) ?_ (by decide)
          · omega
          · omega
      _ < 2 ^ 63 := by decide

theorem toRatio_eq (h : BandwidthInRange period quota) (hq : quota ≠ runtimeInf) :
    quota / nsecPerUsec ≠ runtimeInf ∧
      toRatio (period / nsecPerUsec) (quota / nsecPerUsec) = recorded (share period quota) := by
  obtain ⟨hp, -, hb⟩ := h.bounds
  obtain ⟨-, hle⟩ := hb hq
  have hquota : (quota / nsecPerUsec).toNat = quota.toNat / 1000 := by
    rw [BitVec.toNat_udiv]
    rfl
  have hperiod : (period / nsecPerUsec).toNat = period.toNat / 1000 := by
    rw [BitVec.toNat_udiv]
    rfl
  have hinf : quota / nsecPerUsec ≠ runtimeInf := by
    intro heq
    have hnat := congrArg BitVec.toNat heq
    rw [hquota, runtimeInf, BitVec.toNat_allOnes] at hnat
    omega
  have hzero : period / nsecPerUsec ≠ 0 := by
    intro heq
    have hnat := congrArg BitVec.toNat heq
    rw [hperiod] at hnat
    simp at hnat
    omega
  refine ⟨hinf, ?_⟩
  rw [toRatio, if_neg hinf, if_neg hzero]
  apply BitVec.eq_of_toNat_eq
  have hshare : share period quota =
      some (quota.toNat / 1000 * 2 ^ 20 / (period.toNat / 1000)) := if_neg hq
  have hlt := share_lt h hshare
  rw [hshare, recorded, BitVec.toNat_udiv, BitVec.toNat_shiftLeft, hquota, hperiod,
    BitVec.toNat_ofNat, Nat.shiftLeft_eq, bwShift, Nat.mod_eq_of_lt (hlt.trans (by decide)),
    Nat.mod_eq_of_lt (by omega)]

theorem recorded_some_ne (hn : n < 2 ^ 63) : recorded (some n) ≠ runtimeInf := by
  intro heq
  have hnat := congrArg BitVec.toNat heq
  rw [recorded, runtimeInf, BitVec.toNat_allOnes, BitVec.toNat_ofNat] at hnat
  omega

theorem recorded_slt (hn : n < 2 ^ 63) (hk : k < 2 ^ 63) :
    (recorded (some n)).slt (recorded (some k)) = decide (n < k) := by
  have hint : ∀ {i}, i < 2 ^ 63 → (BitVec.ofNat 64 i).toInt = i := by
    intro i hi
    rw [BitVec.toInt_eq_toNat_of_lt, BitVec.toNat_ofNat, Nat.mod_eq_of_lt (by omega)]
    rw [BitVec.toNat_ofNat]
    omega
  simp only [BitVec.slt, recorded, hint hn, hint hk]
  simp

theorem recorded_not_slt (hn : n < 2 ^ 63) : (recorded (some n)).slt runtimeInf = false := by
  have hint : (BitVec.ofNat 64 n).toInt = n := by
    rw [BitVec.toInt_eq_toNat_of_lt, BitVec.toNat_ofNat, Nat.mod_eq_of_lt (by omega)]
    rw [BitVec.toNat_ofNat]
    omega
  have hinf : runtimeInf.toInt = -1 := by decide
  simp only [BitVec.slt, recorded, hint, hinf, decide_eq_false_iff_not]
  omega

end Ratio

section Down

variable {G : Type*} [DecidableEq G] {bw s : G → CfsBandwidth} {tg g q : G}
  {period quota : BitVec 64} {lim : Option ℕ} {parent : G → Option G}

def proposed (bw : G → CfsBandwidth) (tg : G) (period quota : BitVec 64) (g : G) : Option ℕ :=
  if g = tg then share period quota else share (bw g).period (bw g).quota

def walkData (tg : G) (period quota : BitVec 64) : CfsSchedulableData G :=
  if quota ≠ runtimeInf then ⟨tg, period / nsecPerUsec, quota / nsecPerUsec⟩
  else ⟨tg, period, quota⟩

/-- The quotas and periods stay; what earlier walks recorded need not. -/
def SameLimits (bw s : G → CfsBandwidth) : Prop :=
  ∀ g, (s g).period = (bw g).period ∧ (s g).quota = (bw g).quota

theorem proposed_lt {n : ℕ} (h : BandwidthInRange period quota)
    (hn : proposed bw tg period quota g = some n) : n < 2 ^ 63 := by
  unfold proposed at hn
  split at hn
  · exact share_lt h hn
  · exact share_lt (bw g).inRange hn

theorem normalizeCfsQuota_eq (h : BandwidthInRange period quota) (hs : SameLimits bw s) :
    normalizeCfsQuota s g (walkData tg period quota) =
      recorded (proposed bw tg period quota g) := by
  have hnone : ∀ p : BitVec 64, share p runtimeInf = none := fun p => if_pos rfl
  have hminus : (-1 : BitVec 64) = runtimeInf := by decide
  have hratio : ∀ {p u : BitVec 64}, BandwidthInRange p u → u ≠ runtimeInf →
      (if u / nsecPerUsec = runtimeInf ∨ u / nsecPerUsec = -1 then runtimeInf
        else toRatio (p / nsecPerUsec) (u / nsecPerUsec)) = recorded (share p u) := by
    intro p u hr hu
    obtain ⟨hne, heq⟩ := toRatio_eq hr hu
    rw [if_neg (by rw [hminus, or_self]; exact hne), heq]
  have htg : (walkData tg period quota).tg = tg := by
    unfold walkData
    split <;> rfl
  unfold normalizeCfsQuota proposed
  rw [htg]
  by_cases hg : g = tg
  · simp only [if_pos hg]
    unfold walkData
    by_cases hq : quota = runtimeInf
    · simp [hq, hnone, recorded]
    · rw [if_pos hq]
      exact hratio h hq
  · obtain ⟨hp, hu⟩ := hs g
    simp only [if_neg hg, tgGetCfsPeriod, tgGetCfsQuota, hp, hu]
    by_cases hq : (bw g).quota = runtimeInf
    · simp [hq, hnone, recorded]
    · rw [if_neg hq]
      exact hratio (bw g).inRange hq

theorem tgCfsSchedulableDown_eq (h : BandwidthInRange period quota) (hs : SameLimits bw s)
    (hparent : parent g = some q) (hq : (s q).hierarchicalQuota = recorded lim)
    (hlim : ∀ l ∈ lim, l < 2 ^ 63) :
    tgCfsSchedulableDown false parent (walkData tg period quota) g s =
      if ∀ x ∈ proposed bw tg period quota g, ∀ l ∈ lim, x ≤ l then
        (0, setHierarchicalQuota s g (recorded ((proposed bw tg period quota g).or lim)))
      else (-einval, s) := by
  unfold tgCfsSchedulableDown
  simp only [hparent, normalizeCfsQuota_eq h hs, hq, Bool.false_eq_true, if_false]
  cases hx : proposed bw tg period quota g with
  | none => simp [recorded]
  | some x =>
    have hlt := proposed_lt h hx
    rw [if_neg (recorded_some_ne hlt), Option.some_or]
    cases lim with
    | none => simp [recorded]
    | some l =>
      have hl := hlim l rfl
      simp only [recorded_slt hl hlt, decide_eq_true_eq, Option.mem_def, Option.some.injEq,
        forall_eq']
      by_cases hle : x ≤ l
      · rw [if_pos hle, if_neg (fun hn => absurd hle (not_le.mpr hn.2))]
      · rw [if_neg hle, if_pos ⟨recorded_some_ne hl, not_le.mp hle⟩]

theorem SameLimits.set {u : BitVec 64} (h : SameLimits bw s) :
    SameLimits bw (setHierarchicalQuota s g u) := by
  intro i
  unfold setHierarchicalQuota
  rcases eq_or_ne i g with rfl | hi
  · rw [Function.update_self]
    exact h i
  · rw [Function.update_of_ne hi]
    exact h i

theorem setHierarchicalQuota_of_ne {i : G} {u : BitVec 64} (hi : i ≠ g) :
    setHierarchicalQuota s g u i = s i := Function.update_of_ne hi _ _

/-- On the default hierarchy a group below one without a recorded limit gets none either, whatever
its own share is. -/
theorem tgCfsSchedulableDown_dfl (h : BandwidthInRange period quota) (hs : SameLimits bw s)
    (hparent : parent g = some q) (hq : (s q).hierarchicalQuota = runtimeInf) :
    tgCfsSchedulableDown true parent (walkData tg period quota) g s =
      (0, setHierarchicalQuota s g runtimeInf) := by
  unfold tgCfsSchedulableDown
  simp only [hparent, normalizeCfsQuota_eq h hs, hq, if_true]
  cases hx : proposed bw tg period quota g with
  | none =>
    rw [recorded]
    split <;> rfl
  | some x => simp [recorded_not_slt (proposed_lt h hx)]

theorem visit_dfl {f : Forest G} {place : G → Option (Place G)}
    (h : BandwidthInRange period quota) (hf : f.Places place (some q)) (hnd : f.nodes.Nodup)
    (hout : q ∉ f.nodes) (hs : SameLimits bw s) (hq : (s q).hierarchicalQuota = runtimeInf) :
    ∃ s', f.visit (tgCfsSchedulableDown true (fun g => (place g).bind Place.parent)
        (walkData tg period quota)) tgNop s = (0, s') ∧ SameLimits bw s' ∧
      (∀ i, i ∉ f.nodes → s' i = s i) ∧ ∀ i ∈ f.nodes, (s' i).hierarchicalQuota = runtimeInf := by
  induction f generalizing q s with
  | nil => exact ⟨s, rfl, hs, fun _ _ => rfl, fun i hi => absurd hi List.not_mem_nil⟩
  | cons a children siblings ihc ihs =>
    obtain ⟨ha, hpc, hps⟩ := hf
    obtain ⟨hanot, hcs⟩ := List.nodup_cons.mp hnd
    obtain ⟨hndc, hnds, hdis⟩ := List.nodup_append.mp hcs
    simp only [Forest.nodes, List.mem_cons, List.mem_append, not_or] at hout hanot
    obtain ⟨hqa, hqc, hqs⟩ := hout
    have hparent : (place a).bind Place.parent = some q := by rw [ha]; rfl
    have hdown : tgCfsSchedulableDown true (fun g => (place g).bind Place.parent)
        (walkData tg period quota) a s = (0, setHierarchicalQuota s a runtimeInf) :=
      tgCfsSchedulableDown_dfl h hs hparent hq
    have hrec : (setHierarchicalQuota s a runtimeInf a).hierarchicalQuota = runtimeInf := by
      rw [setHierarchicalQuota, Function.update_self]
    obtain ⟨s₁, hvisit₁, hs₁, hframe₁, hset₁⟩ := ihc hpc hndc hanot.1 hs.set hrec
    have hq₁ : (s₁ q).hierarchicalQuota = runtimeInf := by
      rw [hframe₁ q hqc, setHierarchicalQuota_of_ne hqa, hq]
    obtain ⟨s₂, hvisit₂, hs₂, hframe₂, hset₂⟩ := ihs hps hnds hqs hs₁ hq₁
    refine ⟨s₂, ?_, hs₂, fun i hi => ?_, fun i hi => ?_⟩
    · rw [Forest.visit, hdown]
      simp [hvisit₁, hvisit₂, tgNop]
    · simp only [Forest.nodes, List.mem_cons, List.mem_append, not_or] at hi
      rw [hframe₂ i hi.2.2, hframe₁ i hi.2.1, setHierarchicalQuota_of_ne hi.1]
    · by_cases his : i ∈ siblings.nodes
      · exact hset₂ i his
      · rw [hframe₂ i his]
        simp only [Forest.nodes, List.mem_cons, List.mem_append] at hi
        rcases hi with rfl | hic | his'
        · rw [hframe₁ i hanot.1, hrec]
        · exact hset₁ i hic
        · exact absurd his' his

/-- What the walk over some groups does: the limits stay, only their records change, and it fails
unless the groups respect the share nearest to them. -/
structure WalkOutcome (bw s : G → CfsBandwidth) (f : Forest G) (capped : Prop)
    (r : ℤ × (G → CfsBandwidth)) : Prop where
  limits : SameLimits bw r.2
  frame : ∀ i, i ∉ f.nodes → r.2 i = s i
  verdict : r.1 = 0 ∧ capped ∨ r.1 = -einval ∧ ¬ capped

theorem visit_capped {f : Forest G} {place : G → Option (Place G)}
    (h : BandwidthInRange period quota) (hf : f.Places place (some q)) (hnd : f.nodes.Nodup)
    (hout : q ∉ f.nodes) (hs : SameLimits bw s) (hq : (s q).hierarchicalQuota = recorded lim)
    (hlim : ∀ l ∈ lim, l < 2 ^ 63) :
    WalkOutcome bw s f (f.Capped (proposed bw tg period quota) lim)
      (f.visit (tgCfsSchedulableDown false (fun g => (place g).bind Place.parent)
        (walkData tg period quota)) tgNop s) := by
  induction f generalizing q lim s with
  | nil => exact ⟨hs, fun _ _ => rfl, Or.inl ⟨rfl, trivial⟩⟩
  | cons a children siblings ihc ihs =>
    obtain ⟨ha, hpc, hps⟩ := hf
    obtain ⟨hanot, hcs⟩ := List.nodup_cons.mp hnd
    obtain ⟨hndc, hnds, hdis⟩ := List.nodup_append.mp hcs
    simp only [Forest.nodes, List.mem_cons, List.mem_append, not_or] at hout hanot
    obtain ⟨hqa, hqc, hqs⟩ := hout
    have hparent : (place a).bind Place.parent = some q := by rw [ha]; rfl
    have hdown : tgCfsSchedulableDown false (fun g => (place g).bind Place.parent)
        (walkData tg period quota) a s =
        if ∀ x ∈ proposed bw tg period quota a, ∀ l ∈ lim, x ≤ l then
          (0, setHierarchicalQuota s a (recorded ((proposed bw tg period quota a).or lim)))
        else (-einval, s) := tgCfsSchedulableDown_eq h hs hparent hq hlim
    rw [Forest.visit, hdown]
    by_cases hle : ∀ x ∈ proposed bw tg period quota a, ∀ l ∈ lim, x ≤ l
    case neg =>
      -- refused at `a`, before its record is written
      rw [if_neg hle]
      exact ⟨hs, fun _ _ => rfl, Or.inr ⟨rfl, fun hc => hle hc.1⟩⟩
    rw [if_pos hle]
    have hlim' : ∀ l ∈ (proposed bw tg period quota a).or lim, l < 2 ^ 63 := by
      intro l hl
      rcases Option.or_eq_some_iff.mp hl with hx | ⟨-, hl⟩
      · exact proposed_lt h hx
      · exact hlim l hl
    have hrec : (setHierarchicalQuota s a (recorded ((proposed bw tg period quota a).or lim))
        a).hierarchicalQuota = recorded ((proposed bw tg period quota a).or lim) := by
      rw [setHierarchicalQuota, Function.update_self]
    have hchildren := ihc hpc hndc hanot.1 hs.set hrec hlim'
    dsimp only
    rw [if_neg (by decide)]
    generalize children.visit _ tgNop _ = r at hchildren ⊢
    have hframe : ∀ i, i ∉ (Forest.cons a children siblings).nodes → r.2 i = s i := by
      intro i hi
      simp only [Forest.nodes, List.mem_cons, List.mem_append, not_or] at hi
      rw [hchildren.frame i hi.2.1, setHierarchicalQuota_of_ne hi.1]
    rcases hchildren.verdict with ⟨hret, hcapped⟩ | ⟨hret, hcapped⟩
    · have hq' : (r.2 q).hierarchicalQuota = recorded lim := by
        rw [hchildren.frame q hqc, setHierarchicalQuota_of_ne hqa, hq]
      have hsiblings := ihs hps hnds hqs hchildren.limits hq' hlim
      rw [if_neg (not_not.mpr hret)]
      simp only [tgNop, ne_eq, not_true_eq_false, if_false]
      refine ⟨hsiblings.limits, fun i hi => ?_, ?_⟩
      · have hi' := hi
        simp only [Forest.nodes, List.mem_cons, List.mem_append, not_or] at hi'
        rw [hsiblings.frame i hi'.2.2, hframe i hi]
      · rcases hsiblings.verdict with ⟨hz, hc⟩ | ⟨hz, hc⟩
        · exact Or.inl ⟨hz, hle, hcapped, hc⟩
        · exact Or.inr ⟨hz, fun hall => hc hall.2.2⟩
    · rw [if_pos (by rw [hret]; decide)]
      exact ⟨hchildren.limits, hframe, Or.inr ⟨hret, fun hall => hcapped hall.2.1⟩⟩

end Down

section Tree

variable {G : Type*} [DecidableEq G] {t t' : TaskGroups G} {bw bw' : G → CfsBandwidth} {tg parent : G}
  {period quota : BitVec 64} {bound bound' : G → Option ℕ}

/-- No group has a larger share than a group above it; the root group has no limit. -/
def TaskGroups.Nested (t : TaskGroups G) (bound : G → Option ℕ) : Prop :=
  ∀ g as, (g, as) ∈ t.tree.paths [] → ∀ x ∈ bound g, ∀ a ∈ as, a ≠ t.rootTaskGroup →
    ∀ y ∈ bound a, x ≤ y

theorem nested_iff : t.Nested bound ↔ t.children.Capped bound none := by
  obtain ⟨-, -, -, hroot⟩ := t.places
  let masked : G → Option ℕ := fun g => if g = t.rootTaskGroup then none else bound g
  have hmasked : ∀ g ∈ t.children.nodes, masked g = bound g := fun g hg =>
    if_neg (ne_of_mem_of_not_mem hg hroot)
  have hcapped : t.children.Capped bound none ↔ t.children.Capped masked none :=
    ⟨fun h => h.congr hmasked, fun h => h.congr fun g hg => (hmasked g hg).symm⟩
  have hnearest : Forest.Nearest masked [t.rootTaskGroup] none := by
    refine ⟨fun l hl => absurd hl (by simp), fun b hb y hy => ?_⟩
    obtain rfl := List.mem_singleton.mp hb
    simp [masked] at hy
  rw [hcapped, Forest.capped_iff hnearest]
  constructor
  · intro h g as hpath x hx b hb y hy
    have hg := Forest.mem_nodes_of_path hpath
    rw [hmasked g hg] at hx
    have hne : b ≠ t.rootTaskGroup := by
      rintro rfl
      simp [masked] at hy
    refine h g as ?_ x hx b hb hne y ?_
    · simp [TaskGroups.tree, Forest.paths, hpath]
    · simpa [masked, hne] using hy
  · intro h g as hpath x hx b hb hne y hy
    simp only [TaskGroups.tree, Forest.paths, List.append_nil, List.mem_cons, Prod.mk.injEq]
      at hpath
    rcases hpath with ⟨-, rfl⟩ | hpath
    · exact absurd hb List.not_mem_nil
    · refine h g as hpath x ?_ b hb y ?_
      · rwa [hmasked g (Forest.mem_nodes_of_path hpath)]
      · simpa [masked, hne] using hy

theorem cfsSchedulable_eq (onDfl : Bool) : cfsSchedulable onDfl t bw tg period quota =
    some (t.children.visit (tgCfsSchedulableDown onDfl (fun g => (t.place g).bind Place.parent)
      (walkData tg period quota)) tgNop (setHierarchicalQuota bw t.rootTaskGroup runtimeInf)) := by
  obtain ⟨hroot, -, -, -⟩ := t.places
  have hdown : tgCfsSchedulableDown onDfl (fun g => (t.place g).bind Place.parent)
      (walkData tg period quota) t.rootTaskGroup bw =
      (0, setHierarchicalQuota bw t.rootTaskGroup runtimeInf) := by
    unfold tgCfsSchedulableDown
    simp only [hroot, Option.bind_some]
  refine (t.walkTgTree_visit _ _ _).trans (congrArg some ?_)
  change Forest.visit (tgCfsSchedulableDown onDfl (fun g => (t.place g).bind Place.parent)
    (walkData tg period quota)) tgNop t.tree bw = _
  rw [TaskGroups.tree, Forest.visit, hdown]
  simp only [Forest.visit, tgNop, ne_eq, not_true_eq_false, if_false]
  split
  case isTrue => rfl
  case isFalse hz => rw [← not_not.mp hz]

theorem root_recorded : (setHierarchicalQuota bw t.rootTaskGroup runtimeInf
    t.rootTaskGroup).hierarchicalQuota = runtimeInf := by
  rw [setHierarchicalQuota, Function.update_self]

/-- The walk from the root decides whether the shares nest, whatever earlier walks recorded. -/
theorem cfsSchedulable_spec (h : BandwidthInRange period quota) :
    ∃ r, cfsSchedulable false t bw tg period quota = some r ∧ SameLimits bw r.2 ∧
      (r.1 = 0 ∧ t.Nested (proposed bw tg period quota) ∨
        r.1 = -einval ∧ ¬ t.Nested (proposed bw tg period quota)) := by
  obtain ⟨-, hplaces, hnd, hout⟩ := t.places
  have hset : SameLimits bw (setHierarchicalQuota bw t.rootTaskGroup runtimeInf) :=
    SameLimits.set fun g => ⟨rfl, rfl⟩
  obtain ⟨hlimits, -, hverdict⟩ : WalkOutcome bw _ t.children
      (t.children.Capped (proposed bw tg period quota) none) _ :=
    visit_capped h hplaces hnd hout hset root_recorded fun l hl => absurd hl (by simp)
  exact ⟨_, cfsSchedulable_eq false, hlimits, by rwa [nested_iff]⟩

def shares (bw : G → CfsBandwidth) (g : G) : Option ℕ := share (bw g).period (bw g).quota

omit [DecidableEq G] in
theorem SameLimits.shares (h : SameLimits bw bw') : shares bw' = shares bw := by
  funext g
  rw [Kernel.shares, (h g).1, (h g).2, Kernel.shares]

/-- The group has the new period and quota, and the other groups have theirs. -/
structure Stored (bw bw' : G → CfsBandwidth) (tg : G) (period quota : BitVec 64) : Prop where
  period : (bw' tg).period = period
  quota : (bw' tg).quota = quota
  others : ∀ g, g ≠ tg → (bw' g).period = (bw g).period ∧ (bw' g).quota = (bw g).quota

theorem SameLimits.stored (hlimits : SameLimits bw bw') (h : BandwidthInRange period quota)
    (u : BitVec 64) : Stored bw (Function.update bw' tg ⟨period, quota, u, h⟩) tg period quota := by
  refine ⟨by rw [Function.update_self], by rw [Function.update_self], fun g hg => ?_⟩
  rw [Function.update_of_ne hg]
  exact hlimits g

theorem Stored.shares (h : Stored bw bw' tg period quota) :
    shares bw' = proposed bw tg period quota := by
  funext g
  unfold Kernel.shares proposed
  rcases eq_or_ne g tg with rfl | hg
  · rw [if_pos rfl, h.period, h.quota]
  · rw [if_neg hg, (h.others g hg).1, (h.others g hg).2]

/-- On the legacy hierarchy the period and the quota of a group below the root are stored exactly
when they are in range and the shares then nest; else the limits of all groups stay. What earlier
walks recorded plays no part. -/
theorem tgSetCfsBandwidth_spec (t : TaskGroups G) (bw : G → CfsBandwidth) (tg : G)
    (period quota : BitVec 64) :
    ∃ r, tgSetCfsBandwidth false t bw tg period quota = some r ∧
      (r.1 = 0 ∧ (tg ≠ t.rootTaskGroup ∧ BandwidthInRange period quota ∧
          t.Nested (proposed bw tg period quota)) ∧ Stored bw r.2 tg period quota ∨
        r.1 = -einval ∧ ¬ (tg ≠ t.rootTaskGroup ∧ BandwidthInRange period quota ∧
          t.Nested (proposed bw tg period quota)) ∧ SameLimits bw r.2) := by
  unfold tgSetCfsBandwidth
  by_cases htg : tg = t.rootTaskGroup
  · rw [if_pos htg]
    exact ⟨_, rfl, Or.inr ⟨rfl, fun hall => hall.1 htg, fun _ => ⟨rfl, rfl⟩⟩⟩
  rw [if_neg htg]
  by_cases h : BandwidthInRange period quota
  · obtain ⟨r, hr, hlimits, hverdict⟩ : ∃ r, cfsSchedulable false t bw tg period quota = some r ∧
      _ := cfsSchedulable_spec h
    rw [dif_pos h, hr]
    rcases hverdict with ⟨hret, hnested⟩ | ⟨hret, hnested⟩
    · refine ⟨_, rfl, Or.inl ?_⟩
      dsimp only
      rw [if_neg (not_not.mpr hret)]
      exact ⟨rfl, ⟨htg, h, hnested⟩, hlimits.stored h _⟩
    · refine ⟨_, rfl, Or.inr ?_⟩
      dsimp only
      rw [if_pos (by rw [hret]; decide)]
      exact ⟨hret, fun hall => hnested hall.2.2, hlimits⟩
  · rw [dif_neg h]
    exact ⟨_, rfl, Or.inr ⟨rfl, fun hall => h hall.2.1, fun _ => ⟨rfl, rfl⟩⟩⟩

/-- On the default hierarchy no period and quota in range are refused below the root: the walk takes
the minimum with the mark for no limit and leaves every group with that mark. -/
theorem tgSetCfsBandwidth_dfl (t : TaskGroups G) (bw : G → CfsBandwidth) (tg : G)
    (period quota : BitVec 64) :
    ∃ r, tgSetCfsBandwidth true t bw tg period quota = some r ∧
      (r.1 = 0 ∧ (tg ≠ t.rootTaskGroup ∧ BandwidthInRange period quota) ∧
          Stored bw r.2 tg period quota ∧
          (∀ g ∈ t.tree.nodes, (r.2 g).hierarchicalQuota = runtimeInf) ∨
        r.1 = -einval ∧ ¬ (tg ≠ t.rootTaskGroup ∧ BandwidthInRange period quota) ∧
          r.2 = bw) := by
  unfold tgSetCfsBandwidth
  by_cases htg : tg = t.rootTaskGroup
  · rw [if_pos htg]
    exact ⟨_, rfl, Or.inr ⟨rfl, fun hall => hall.1 htg, rfl⟩⟩
  rw [if_neg htg]
  by_cases h : BandwidthInRange period quota
  case neg =>
    rw [dif_neg h]
    exact ⟨_, rfl, Or.inr ⟨rfl, fun hall => h hall.2, rfl⟩⟩
  obtain ⟨-, hplaces, hnd, hout⟩ := t.places
  have hset : SameLimits bw (setHierarchicalQuota bw t.rootTaskGroup runtimeInf) :=
    SameLimits.set fun g => ⟨rfl, rfl⟩
  obtain ⟨s, hvisit, hlimits, hframe, hall⟩ : ∃ s, Forest.visit (tgCfsSchedulableDown true
      (fun g => (t.place g).bind Place.parent) (walkData tg period quota)) tgNop t.children
      (setHierarchicalQuota bw t.rootTaskGroup runtimeInf) = (0, s) ∧ _ :=
    visit_dfl h hplaces hnd hout hset root_recorded
  have hnone : ∀ g ∈ t.tree.nodes, (s g).hierarchicalQuota = runtimeInf := by
    intro g hg
    simp only [TaskGroups.tree, Forest.nodes, List.append_nil, List.mem_cons] at hg
    rcases hg with rfl | hg
    · rw [hframe _ hout, root_recorded]
    · exact hall g hg
  rw [dif_pos h, cfsSchedulable_eq, hvisit]
  refine ⟨_, rfl, Or.inl ⟨rfl, ⟨htg, h⟩, hlimits.stored h _, fun g hg => ?_⟩⟩
  change (Function.update s tg _ g).hierarchicalQuota = runtimeInf
  rcases eq_or_ne g tg with rfl | hne
  · rw [Function.update_self]
    exact hnone g hg
  · rw [Function.update_of_ne hne]
    exact hnone g hg

theorem TaskGroups.Nested.set {r : ℤ × (G → CfsBandwidth)} (hn : t.Nested (shares bw))
    (hr : tgSetCfsBandwidth false t bw tg period quota = some r) : t.Nested (shares r.2) := by
  unfold tgSetCfsBandwidth at hr
  split at hr
  case isTrue =>
    obtain rfl := Option.some.inj hr
    exact hn
  split at hr
  case isFalse =>
    obtain rfl := Option.some.inj hr
    exact hn
  case isTrue h =>
    obtain ⟨r', hr', hlimits, hverdict⟩ : ∃ r', cfsSchedulable false t bw tg period quota = some r' ∧
      _ := cfsSchedulable_spec h
    rw [hr'] at hr
    obtain rfl := Option.some.inj hr
    rcases hverdict with ⟨hret, hnested⟩ | ⟨hret, -⟩
    · dsimp only
      rw [if_neg (not_not.mpr hret), (hlimits.stored h _).shares]
      exact hnested
    · dsimp only
      rw [if_pos (by rw [hret]; decide), hlimits.shares]
      exact hn

theorem TaskGroups.Nested.online {b : CfsBandwidth} (hn : t.Nested (shares bw))
    (ht : t.schedOnlineGroup tg parent = some t') (hb : b.quota = runtimeInf) :
    t'.Nested (shares (Function.update bw tg b)) := by
  obtain ⟨hroot, -, hnew, htree⟩ := TaskGroups.schedOnlineGroup_tree ht
  have hnone : shares (Function.update bw tg b) tg = none := by
    rw [shares, Function.update_self, hb]
    exact if_pos rfl
  have hold : ∀ g, g ≠ tg → shares (Function.update bw tg b) g = shares bw g := fun g hg => by
    rw [shares, Function.update_of_ne hg, shares]
  intro g as hpath x hx a ha hne y hy
  have hgt : g ≠ tg := by
    rintro rfl
    rw [hnone] at hx
    cases hx
  have hat : a ≠ tg := by
    rintro rfl
    rw [hnone] at hy
    cases hy
  rw [htree] at hpath
  rcases Forest.mem_paths_insert hpath with hpath | ⟨rfl, -⟩
  · rw [hold g hgt] at hx
    rw [hold a hat] at hy
    rw [hroot] at hne
    exact hn g as hpath x hx a ha hne y hy
  · exact absurd rfl hgt

end Tree

namespace Bandwidths

variable {G : Type*} [DecidableEq G] {m m' : Bandwidths G} {a : BandwidthAction G}

theorem nested_act (hn : m.groups.Nested (shares m.bw)) (ha : m.act false a = some m') :
    m'.groups.Nested (shares m'.bw) := by
  cases a with
  | online tg parent b =>
    obtain ⟨hb, hmap⟩ := Option.ite_none_right_eq_some.mp ha
    obtain ⟨t', ht', rfl⟩ := Option.map_eq_some_iff.mp hmap
    exact hn.online ht' hb
  | offline tg =>
    obtain rfl := Option.some.inj ha
    intro g as hpath
    exact hn g as (TaskGroups.schedOfflineGroup_paths hpath)
  | cfsQuotaUs tg us =>
    obtain ⟨r, hr, rfl⟩ := Option.map_eq_some_iff.mp ha
    unfold tgSetCfsQuota at hr
    dsimp only at hr
    split at hr
    · exact hn.set hr
    · split at hr
      · exact hn.set hr
      · obtain rfl := Option.some.inj hr
        exact hn
  | cfsPeriodUs tg us =>
    obtain ⟨r, hr, rfl⟩ := Option.map_eq_some_iff.mp ha
    unfold tgSetCfsPeriod at hr
    split at hr
    · obtain rfl := Option.some.inj hr
      exact hn
    · exact hn.set hr
  | max tg period quota =>
    obtain ⟨r, hr, rfl⟩ := Option.map_eq_some_iff.mp ha
    exact hn.set hr

/-- In every run on the legacy hierarchy, with accepted and refused writes in any order, no group
has a larger share of the period than a group above it. -/
theorem shares_nest (h : (bandwidths G false).Reachable m) : m.groups.Nested (shares m.bw) := by
  refine h.invariant (I := fun m => m.groups.Nested (shares m.bw)) ?_ ?_
  · intro m hm
    rw [nested_iff, hm]
    trivial
  · rintro m m' hn ⟨a, ha⟩
    exact nested_act hn ha

theorem shares_nest_rootAlone : ∃ m : Bandwidths (Option Bool),
    rootAlone.act false (.online (some true) none .unlimited) = some m ∧
      m.groups.Nested (shares m.bw) := by
  obtain ⟨m, hm⟩ := Option.isSome_iff_exists.mp
    (show (rootAlone.act false (.online (some true) none .unlimited)).isSome = true by decide)
  have hinit : (bandwidths (Option Bool) false).Reachable rootAlone :=
    .init (show rootAlone.groups.children = .nil from rfl)
  exact ⟨m, hm, shares_nest (hinit.tail ⟨_, hm⟩)⟩

end Bandwidths

end OperatingSystem.Kernel
