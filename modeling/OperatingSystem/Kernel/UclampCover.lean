import OperatingSystem.Kernel.UclampMax

/-! # No task below its clamp

Over a run whose requests are utilizations and that changes a maximum in place
only beside another counted task, the clamps of a runqueue cover those of its
tasks. Changing the maximum of a lone task in place is enough to lose this.
-/

namespace OperatingSystem.Kernel

namespace Clamps

variable {C T G : Type*} {B : ℕ} {m m' : Clamps C T G B} {p q : T} {c : C} {id j : ClampId}

structure Sources [NeZero B] (m : Clamps C T G B) : Prop where
  request : ∀ p ∈ m.tasks, ∀ id, ((m.task p).uclampReq id).Fits
  group : ∀ g id, (m.group g id).Fits
  default : ∀ id, (m.uclampDefault id).Fits
  sysctl : m.sysctl.utilMinRtDefault ≤ schedCapacityScale

/-- The clamps of the runqueues cover those of the counted tasks. -/
structure Covered [NeZero B] (m : Clamps C T G B) : Prop where
  sound : ∀ c id, ((m.rq c).uclamp id).Sound id
  cover : ∀ p ∈ m.tasks, ∀ id, ((m.task p).uclamp id).active = true →
    ((m.task p).uclamp id).value ≤
      (((m.rq (m.task p).cpu).uclamp id).bucket ((m.task p).uclamp id).bucketId).value
  fits : ∀ p ∈ m.tasks, ∀ id, ((m.task p).uclamp id).active = true → ((m.task p).uclamp id).Fits

/-- An idle runqueue counts no maximum. -/
def Calm (m : Clamps C T G B) : Prop :=
  ∀ c, (m.rq c).idle = true → ∀ b, (((m.rq c).uclamp .max).bucket b).tasks = 0

/-- A task is counted with both clamps or with none. -/
def Both (m : Clamps C T G B) : Prop :=
  ∀ p ∈ m.tasks, ((m.task p).uclamp .min).active = ((m.task p).uclamp .max).active

section Effective

variable [NeZero B]

theorem Sources.effGet (h : m.Sources) (hp : p ∈ m.tasks) (id : ClampId) :
    (m.uclampEffGet p id).Fits := by
  have htg : (m.uclampTgRestrict p id).Fits := by
    unfold uclampTgRestrict
    dsimp only
    split
    · exact h.request p hp id
    · split
      · exact h.group _ id
      · exact h.request p hp id
  unfold uclampEffGet
  dsimp only
  split
  · exact h.default id
  · exact htg

theorem Covered.congr (h : m.Covered) (hrq : ∀ c, (m'.rq c).uclamp = (m.rq c).uclamp)
    (ht : ∀ q ∈ m'.tasks, ∀ id, ((m'.task q).uclamp id).active = true → q ∈ m.tasks ∧
      (m'.task q).uclamp id = (m.task q).uclamp id ∧ (m'.task q).cpu = (m.task q).cpu) :
    m'.Covered := by
  refine ⟨fun c id => ?_, fun q hq id ha => ?_, fun q hq id ha => ?_⟩
  · rw [hrq]
    exact h.sound c id
  · obtain ⟨hq', hu, hc⟩ := ht q hq id ha
    rw [hu] at ha ⊢
    rw [hc, hrq]
    exact h.cover q hq' id ha
  · obtain ⟨hq', hu, -⟩ := ht q hq id ha
    rw [hu] at ha ⊢
    exact h.fits q hq' id ha

theorem Sources.congr (h : m.Sources) (hg : m'.group = m.group)
    (hd : m'.uclampDefault = m.uclampDefault) (hs : m'.sysctl = m.sysctl)
    (ht : ∀ q ∈ m'.tasks, ∀ id, ((m'.task q).uclampReq id).Fits) : m'.Sources :=
  ⟨ht, hg ▸ h.group, hd ▸ h.default, hs ▸ h.sysctl⟩

theorem fits_update {d : ClampId → UclampSe B} {u : UclampSe B} (hd : ∀ j, (d j).Fits)
    (hu : u.Fits) (j : ClampId) : (Function.update d id u j).Fits := by
  rcases eq_or_ne j id with rfl | hj
  · rwa [Function.update_self]
  · rw [Function.update_of_ne hj]
    exact hd j

theorem resetRequest_fits {v : ℕ} {attr : ClampAttr} {t : ClampTask C G B}
    (hv : v ≤ schedCapacityScale) (ht : ∀ j, (t.uclampReq j).Fits) (j : ClampId) :
    ((resetRequest v attr id t).uclampReq j).Fits := by
  unfold resetRequest
  split
  · refine fits_update ht (uclampSeSet_fits ?_) j
    split
    · exact hv
    · exact uclampNone_le id
  · exact ht j

theorem uclampFork_fits {b : Bool} {t : ClampTask C G B} (ht : ∀ j, (t.uclampReq j).Fits)
    (j : ClampId) : ((uclampFork b t).uclampReq j).Fits := by
  unfold uclampFork
  dsimp only
  split
  · exact uclampSeSet_fits (uclampNone_le j)
  · exact ht j

/-- A utilization that `sched_setattr` documents: one in range, or the reset value. -/
def Documented (util : Option (BitVec 32)) : Prop :=
  ∀ v, util = some v → v = -1 ∨ v.toNat ≤ schedCapacityScale

theorem setRequest_fits {util : Option (BitVec 32)} {t : ClampTask C G B} (hu : Documented util)
    (ht : ∀ j, (t.uclampReq j).Fits) (j : ClampId) : ((setRequest id util t).uclampReq j).Fits := by
  unfold setRequest
  split
  case h_1 v =>
    split
    · exact ht j
    case isFalse hne =>
      exact fits_update ht (uclampSeSet_fits ((hu v rfl).resolve_left hne)) j
  case h_2 => exact ht j

end Effective

variable [DecidableEq C]

theorem Exact.tasks_ne_zero (h : m.Exact) (hp : p ∈ m.tasks)
    (ha : ((m.task p).uclamp id).active = true) :
    (((m.rq (m.task p).cpu).uclamp id).bucket ((m.task p).uclamp id).bucketId).tasks ≠ 0 := by
  rw [h]
  exact (tally_pos hp (by simp [ref, ha])).ne'

theorem Exact.inactive (h : m.Exact) (hp : p ∈ m.tasks)
    (hempty : ∀ b, (((m.rq (m.task p).cpu).uclamp id).bucket b).tasks = 0) :
    ((m.task p).uclamp id).active = false := by
  by_contra ha
  exact h.tasks_ne_zero hp (by simpa using ha) (hempty _)

/-- An idle runqueue counts no minimum either. -/
theorem Calm.min_empty (h : m.Calm) (hexact : m.Exact) (hboth : m.Both)
    (hidle : (m.rq c).idle = true) (id : ClampId) (b : Fin B) :
    (((m.rq c).uclamp id).bucket b).tasks = 0 := by
  cases id with
  | max => exact h c hidle b
  | min =>
    rw [hexact]
    refine Nat.eq_zero_of_not_pos fun hpos => ?_
    obtain ⟨p, hp, hsome⟩ := tally_pos_iff.mp hpos
    have hc : ((m.task p).uclamp .min).active = true ∧ (m.task p).cpu = c := by
      by_contra hc
      simp [ref, hc] at hsome
    obtain ⟨ha, rfl⟩ := hc
    rw [hboth p hp, hexact.inactive hp (h _ hidle)] at ha
    exact absurd ha (by simp)

variable [DecidableEq T]

theorem rqIncId_rq : (m.rqIncId p id).rq c = if c = (m.task p).cpu then
      uclampRqIncId (m.rq c) { m.uclampEffGet p id with active := true } id
    else m.rq c := by
  rcases eq_or_ne c (m.task p).cpu with rfl | hc
  · rw [if_pos rfl]
    exact setRq_self
  · rw [if_neg hc]
    exact setRq_of_ne hc

theorem rqDecId_rq : (m.rqDecId p id).rq c = if c = (m.task p).cpu then
      uclampRqDecId (m.rq c) ((m.task p).uclamp id) id
    else m.rq c := by
  rcases eq_or_ne c (m.task p).cpu with rfl | hc
  · rw [if_pos rfl]
    exact setRq_self
  · rw [if_neg hc]
    exact setRq_of_ne hc

theorem rqDecId_uclamp_of_active (ha : (((m.rqDecId p id).task q).uclamp j).active = true) :
    ((m.rqDecId p id).task q).uclamp j = (m.task q).uclamp j := by
  rw [rqDecId_task] at ha ⊢
  by_cases hqp : q = p
  · rcases eq_or_ne j id with rfl | hj
    · simp [hqp] at ha
    · simp [hqp, hj]
  · simp [hqp]

/-- The bucket values never fall while a task is counted. -/
theorem rqIncId_bucket_le (hexact : m.Exact) (hq : q ∈ m.tasks)
    (ha : ((m.task q).uclamp j).active = true) :
    (((m.rq (m.task q).cpu).uclamp j).bucket ((m.task q).uclamp j).bucketId).value ≤
      ((((m.rqIncId p id).rq (m.task q).cpu).uclamp j).bucket
        ((m.task q).uclamp j).bucketId).value := by
  rw [rqIncId_rq]
  split
  case isFalse => exact le_rfl
  case isTrue hc =>
    rcases eq_or_ne j id with rfl | hj
    · by_cases hb : ((m.task q).uclamp j).bucketId = (m.uclampEffGet p j).bucketId
      · have hne := hexact.tasks_ne_zero hq ha
        rw [hb] at hne ⊢
        have hself := uclampRqIncId_bucket_self (m.rq (m.task q).cpu)
          { m.uclampEffGet p j with active := true } j
        dsimp only at hself
        rw [hself, if_neg hne]
        exact le_max_left _ _
      · exact (congrArg UclampBucket.value (uclampRqIncId_bucket_of_ne _ j hb)).ge
    · rw [uclampRqIncId_of_ne hj]

section Count

theorem Calm.rqDecId (h : m.Calm) : (m.rqDecId p id).Calm := by
  intro c hidle b
  rw [rqDecId_rq] at hidle ⊢
  split
  case isFalse hc =>
    rw [if_neg hc] at hidle
    exact h c hidle b
  case isTrue hc =>
    rw [if_pos hc] at hidle
    cases hact : ((m.task p).uclamp id).active with
    | false =>
      rw [uclampRqDecId_inactive hact] at hidle ⊢
      exact h c hidle b
    | true =>
      obtain ⟨w, i, he, hcase⟩ := uclampRqDecId_spec (m.rq c) id hact
      have hidle' : (m.rq c).idle = true ∨ i = true := by
        rw [he] at hidle
        simpa using hidle
      rcases hidle' with hold | rfl
      · rw [uclampRqDecId_tasks hact, h c hold, Nat.zero_sub]
      · -- the flag is set by the last maximum that leaves
        rcases hcase with ⟨-, hi, -⟩ | ⟨-, -, hmax⟩
        · exact absurd hi (by simp)
        · cases hmax with
          | idleMax hid hempty =>
            subst hid
            rw [he]
            dsimp only
            rw [setUclamp_of_eq]
            exact hempty b

theorem Calm.rqIncId (h : m.Calm) (hidle : (m.rq (m.task p).cpu).idle = false) :
    (m.rqIncId p id).Calm := by
  intro c hc b
  rw [rqIncId_rq] at hc ⊢
  split
  case isFalse hne =>
    rw [if_neg hne] at hc
    exact h c hc b
  case isTrue he =>
    rw [if_pos he, uclampRqIncId_idle, he, hidle] at hc
    exact absurd hc (by simp)

variable [NeZero B]

theorem Covered.rqIncId (h : m.Covered) (hexact : m.Exact) (hs : m.Sources) (hp : p ∈ m.tasks)
    (hidle : (m.rq (m.task p).cpu).idle = true →
      ∀ b, (((m.rq (m.task p).cpu).uclamp id).bucket b).tasks = 0) :
    (m.rqIncId p id).Covered := by
  have hfit : UclampSe.Fits { m.uclampEffGet p id with active := true } := hs.effGet hp id
  refine ⟨fun c j => ?_, fun q hq j ha => ?_, fun q hq j ha => ?_⟩
  · rw [rqIncId_rq]
    split
    case isFalse => exact h.sound c j
    case isTrue hc =>
      subst hc
      rcases eq_or_ne j id with rfl | hj
      · exact (h.sound _ j).inc hidle hfit
      · rw [uclampRqIncId_of_ne hj]
        exact h.sound _ j
  · by_cases hnew : q = p ∧ j = id
    · obtain ⟨rfl, rfl⟩ := hnew
      rw [rqIncId_task]
      simp only [if_true, Function.update_self]
      rw [rqIncId_rq, if_pos rfl]
      have hself := uclampRqIncId_bucket_self (m.rq (m.task q).cpu)
        { m.uclampEffGet q j with active := true } j
      dsimp only at hself
      rw [hself]
      split
      · exact le_rfl
      · exact le_max_right _ _
    · have hold : ((m.rqIncId p id).task q).uclamp j = (m.task q).uclamp j := by
        rw [rqIncId_task]
        by_cases hqp : q = p
        · have hj : j ≠ id := fun hj => hnew ⟨hqp, hj⟩
          simp [hqp, hj]
        · simp [hqp]
      have hcpu : ((m.rqIncId p id).task q).cpu = (m.task q).cpu := by rw [rqIncId_task]
      rw [hold] at ha
      rw [hold, hcpu]
      exact (h.cover q hq j ha).trans (rqIncId_bucket_le hexact hq ha)
  · by_cases hnew : q = p ∧ j = id
    · obtain ⟨rfl, rfl⟩ := hnew
      rw [rqIncId_task]
      simpa only [if_true, Function.update_self] using hfit
    · rw [rqIncId_task] at ha ⊢
      by_cases hqp : q = p
      · have hj : j ≠ id := fun hj => hnew ⟨hqp, hj⟩
        simp only [hqp, if_true, Function.update_of_ne hj] at ha ⊢
        exact h.fits p hp j ha
      · simp only [hqp, if_false] at ha ⊢
        exact h.fits q hq j ha

theorem Covered.rqDecId (h : m.Covered) (hexact : m.Exact) (hp : p ∈ m.tasks) :
    (m.rqDecId p id).Covered := by
  have hrq : ∀ c j, (((m.rqDecId p id).rq c).uclamp j).Sound j ∧
      ∀ b, ((((m.rqDecId p id).rq c).uclamp j).bucket b).value =
        (((m.rq c).uclamp j).bucket b).value := by
    intro c j
    rw [rqDecId_rq]
    split
    case isFalse => exact ⟨h.sound c j, fun _ => rfl⟩
    case isTrue hc =>
      subst hc
      cases hact : ((m.task p).uclamp id).active with
      | false =>
        rw [uclampRqDecId_inactive hact]
        exact ⟨h.sound _ j, fun _ => rfl⟩
      | true =>
        obtain ⟨w, i, he, -⟩ := uclampRqDecId_spec (m.rq (m.task p).cpu) id hact
        rcases eq_or_ne j id with rfl | hj
        · refine ⟨(h.sound _ j).dec hact (hexact.tasks_ne_zero hp hact), fun b => ?_⟩
          rw [he]
          dsimp only
          rw [setUclamp_of_eq]
          exact drop_value
        · rw [he]
          dsimp only
          rw [setUclamp_of_ne _ hj]
          exact ⟨h.sound _ j, fun _ => rfl⟩
  refine ⟨fun c j => (hrq c j).1, fun q hq j ha => ?_, fun q hq j ha => ?_⟩
  · have hold := rqDecId_uclamp_of_active ha
    have hcpu : ((m.rqDecId p id).task q).cpu = (m.task q).cpu := by rw [rqDecId_task]
    rw [hold] at ha
    rw [hold, hcpu, (hrq _ _).2]
    exact h.cover q hq j ha
  · have hold := rqDecId_uclamp_of_active ha
    rw [hold] at ha ⊢
    exact h.fits q hq j ha

/-- What the parts of an action of a tame run keep. -/
structure Level (m : Clamps C T G B) : Prop where
  sources : m.Sources
  covered : m.Covered
  calm : m.Calm
  both : m.Both

structure Kept (m : Clamps C T G B) : Prop extends Level m where
  counted : m.Counted

theorem Kept.setTask {t : ClampTask C G B} (h : m.Kept)
    (ht : (∀ id, (t.uclamp id).active = false ∧ ((m.task p).uclamp id).active = false) ∨
      SameClamps (m.task p) t) (hreq : p ∈ m.tasks → ∀ id, (t.uclampReq id).Fits) :
    (m.setTask p t).Kept := by
  refine ⟨⟨h.sources.congr rfl rfl rfl ?_, h.covered.congr (fun _ => rfl) ?_, h.calm, ?_⟩,
    h.counted.setTask ht⟩
  · intro q hq id
    rcases eq_or_ne q p with rfl | hqp
    · rw [setTask_self]
      exact hreq hq id
    · rw [setTask_of_ne hqp]
      exact h.sources.request q hq id
  · intro q hq id ha
    rcases eq_or_ne q p with rfl | hqp
    · rw [setTask_self] at ha ⊢
      rcases ht with hoff | ⟨hu, hc, -, -⟩
      · rw [(hoff id).1] at ha
        exact absurd ha (by simp)
      · exact ⟨hq, congrFun hu id, hc⟩
    · rw [setTask_of_ne hqp]
      exact ⟨hq, rfl, rfl⟩
  · intro q hq
    rcases eq_or_ne q p with rfl | hqp
    · rw [setTask_self]
      rcases ht with hoff | ⟨hu, -, -, -⟩
      · rw [(hoff .min).1, (hoff .max).1]
      · rw [hu]
        exact h.both q hq
    · rw [setTask_of_ne hqp]
      exact h.both q hq

theorem Kept.uclampUpdateActive (h : m.Kept) (hp : p ∈ m.tasks)
    (htame : id = .max → ((m.task p).uclamp .max).active = true → ∃ q ∈ m.tasks, q ≠ p ∧
      (m.task q).cpu = (m.task p).cpu ∧ ((m.task q).uclamp .max).active = true) :
    (m.uclampUpdateActive p id).Kept := by
  have hcounted : (m.uclampUpdateActive p id).Counted := h.counted.uclampUpdateActive hp
  unfold Clamps.uclampUpdateActive at hcounted ⊢
  split at hcounted
  case isFalse hoff => rwa [if_neg hoff]
  case isTrue hact =>
    rw [if_pos hact]
    have hexact : (m.rqDecId p id).Exact := h.counted.1.rqDecId hp
    have hcalm : (m.rqDecId p id).Calm := h.calm.rqDecId
    have hsources : (m.rqDecId p id).Sources := h.sources.congr rfl rfl rfl fun q hq id => by
      rw [rqDecId_task]
      exact h.sources.request q hq id
    -- a maximum stays counted on the CPU, so the runqueue does not become idle
    have hidle : ((m.rqDecId p id).rq ((m.rqDecId p id).task p).cpu).idle = false := by
      by_contra hidle
      have hidle : ((m.rqDecId p id).rq ((m.rqDecId p id).task p).cpu).idle = true := by
        simpa using hidle
      obtain ⟨q, hq, hcpu, ha⟩ : ∃ q ∈ m.tasks, (m.task q).cpu = (m.task p).cpu ∧
          (((m.rqDecId p id).task q).uclamp .max).active = true := by
        cases id with
        | min =>
          refine ⟨p, hp, rfl, ?_⟩
          rw [rqDecId_active]
          simpa [h.both p hp] using hact
        | max =>
          obtain ⟨q, hq, hqp, hcpu, ha⟩ := htame rfl hact
          refine ⟨q, hq, hcpu, ?_⟩
          rw [rqDecId_active]
          simpa [hqp] using ha
      have hc : ((m.rqDecId p id).task q).cpu = ((m.rqDecId p id).task p).cpu := by
        rw [rqDecId_task, rqDecId_task]
        exact hcpu
      refine hexact.tasks_ne_zero (p := q) hq ha ?_
      rw [hc]
      exact hcalm _ hidle _
    refine ⟨⟨hsources.congr rfl rfl rfl fun q hq id => ?_,
      (h.covered.rqDecId h.counted.1 hp).rqIncId hexact hsources hp
        (fun hi => absurd hi (by simp [hidle])), hcalm.rqIncId hidle, fun q hq => ?_⟩, hcounted⟩
    · rw [rqIncId_task]
      exact hsources.request q hq id
    · rw [rqIncId_active, rqIncId_active, rqDecId_active, rqDecId_active]
      have hb := h.both q hq
      by_cases hqp : q = p
      · subst hqp
        cases id <;> simp_all
      · simp [hqp, hb]

omit [DecidableEq C] in
theorem Level.setOnRq (h : m.Level) (b : Bool) : (m.setOnRq p b).Level := by
  have htask : ∀ q, ∃ b', (m.setOnRq p b).task q = { m.task q with onRq := b' } := by
    intro q
    rcases eq_or_ne q p with rfl | hq
    · exact ⟨b, setTask_self⟩
    · exact ⟨(m.task q).onRq, setTask_of_ne hq⟩
  refine ⟨h.sources.congr rfl rfl rfl fun q hq id => ?_, h.covered.congr (fun _ => rfl) ?_, h.calm,
    fun q hq => ?_⟩
  · obtain ⟨b', hb⟩ := htask q
    rw [hb]
    exact h.sources.request q hq id
  · intro q hq id ha
    obtain ⟨b', hb⟩ := htask q
    rw [hb]
    exact ⟨hq, rfl, rfl⟩
  · obtain ⟨b', hb⟩ := htask q
    rw [hb]
    exact h.both q hq

theorem Sources.rqIncId (h : m.Sources) : (m.rqIncId p id).Sources :=
  h.congr rfl rfl rfl fun q hq id => by
    rw [rqIncId_task]
    exact h.request q hq id

theorem Sources.rqDecId (h : m.Sources) : (m.rqDecId p id).Sources :=
  h.congr rfl rfl rfl fun q hq id => by
    rw [rqDecId_task]
    exact h.request q hq id

theorem Level.uclampRqInc (h : m.Level) (hexact : m.Exact) (hp : p ∈ m.tasks)
    (hoff : ∀ id, ((m.task p).uclamp id).active = false) : (m.uclampRqInc p).Level := by
  by_cases hon : m.schedUclampUsed = true ∧ (m.task p).uclampEnabled = true
  case neg => rwa [uclampRqInc_of_off hon]
  have hactive := fun q j => uclampRqInc_active (q := q) (j := j) hon.1 hon.2
  have hexact' := hexact.rqIncId hp (hoff .min)
  have hcovered := h.covered.rqIncId hexact h.sources hp fun hi b =>
    h.calm.min_empty hexact h.both hi .min b
  have hcovered' : ((m.rqIncId p .min).rqIncId p .max).Covered := by
    -- counting the minimum leaves the flag and the buckets of the maximum alone
    refine hcovered.rqIncId hexact' h.sources.rqIncId hp fun hi b => ?_
    rw [rqIncId_task] at hi ⊢
    rw [rqIncId_rq, if_pos rfl] at hi ⊢
    rw [uclampRqIncId_of_ne (by decide)]
    exact h.calm _ hi b
  have heq := uclampRqInc_of_on hon.1 hon.2
  dsimp only at heq
  generalize hn : (m.rqIncId p .min).rqIncId p .max = n at heq hcovered'
  have hn' : n.Sources := hn ▸ h.sources.rqIncId.rqIncId
  have htasks : n.tasks = m.tasks := by
    rw [← hn]
    rfl
  refine ⟨?_, ?_, ?_, ?_⟩
  · rw [heq]
    exact hn'.congr rfl rfl rfl hn'.request
  · rw [heq]
    refine hcovered'.congr (fun c => ?_) fun q hq id ha => ⟨hq, rfl, rfl⟩
    rcases eq_or_ne c (n.task p).cpu with rfl | hc
    · rw [setRq_self]
    · rw [setRq_of_ne hc]
  · intro c hi b
    have hcpu : (n.task p).cpu = (m.task p).cpu := by rw [← hn, rqIncId_task, rqIncId_task]
    rw [heq, hcpu] at hi ⊢
    rcases eq_or_ne c (m.task p).cpu with rfl | hc
    · rw [setRq_self] at hi
      exact absurd hi (by simp)
    · have hrq : n.rq c = m.rq c := by
        rw [← hn, rqIncId_rq, if_neg (by rw [rqIncId_task]; exact hc), rqIncId_rq, if_neg hc]
      rw [setRq_of_ne hc, hrq] at hi ⊢
      exact h.calm c hi b
  · intro q hq
    rw [hactive, hactive]
    split
    · rfl
    · refine h.both q ?_
      rwa [uclampRqInc_tasks] at hq

theorem Level.uclampRqDec (h : m.Level) (hexact : m.Exact) (hp : p ∈ m.tasks) :
    (m.uclampRqDec p).Level := by
  by_cases hon : m.schedUclampUsed = true ∧ (m.task p).uclampEnabled = true
  case neg => rwa [uclampRqDec_of_off hon]
  have hactive := fun q j => uclampRqDec_active (q := q) (j := j) hon.1 hon.2
  have heq := uclampRqDec_of_on hon.1 hon.2
  have hcovered : ((m.rqDecId p .min).rqDecId p .max).Covered :=
    (h.covered.rqDecId hexact hp).rqDecId (hexact.rqDecId hp) hp
  refine ⟨?_, ?_, ?_, ?_⟩
  · rw [heq]
    exact h.sources.rqDecId.rqDecId
  · rw [heq]
    exact hcovered
  · rw [heq]
    exact h.calm.rqDecId.rqDecId
  · intro q hq
    rw [hactive, hactive]
    split
    · rfl
    · refine h.both q ?_
      rwa [uclampRqDec_tasks] at hq

theorem Kept.enqueueTask (h : m.Kept) (hp : p ∈ m.tasks) (hq : (m.task p).onRq = false) :
    (m.enqueueTask p).Kept :=
  ⟨(h.toLevel.uclampRqInc h.counted.1 hp (h.counted.2.inactive hp hq)).setOnRq true,
    h.counted.enqueueTask hp hq⟩

theorem Kept.dequeueTask (h : m.Kept) (hp : p ∈ m.tasks) : (m.dequeueTask p).Kept :=
  ⟨(h.toLevel.setOnRq false).uclampRqDec
    (h.counted.1.congr rfl (fun _ => rfl) fun _ _ _ _ => ref_setOnRq false) hp,
    h.counted.dequeueTask hp⟩

/-- What an action of a tame run satisfies: utilizations are documented ones, and the maximum of a
lone task is not changed in place. -/
def Tame (m : Clamps C T G B) : ClampAction C T G → Prop
  | .setattr _ attr => Documented attr.utilMin ∧ Documented attr.utilMax
  | .updateActive p .max => ((m.task p).uclamp .max).active = true → ∃ q ∈ m.tasks, q ≠ p ∧
      (m.task q).cpu = (m.task p).cpu ∧ ((m.task q).uclamp .max).active = true
  | _ => True

omit [DecidableEq T] in
theorem Kept.sysctl (h : m.Kept) (knob : ClampKnob) (v : ℕ) (hc : (m.sysctlUclampHandler knob v).Counted) :
    (m.sysctlUclampHandler knob v).Kept := by
  refine ⟨?_, hc⟩
  unfold sysctlUclampHandler
  dsimp only
  split
  case isTrue => exact h.toLevel
  case isFalse hv =>
    simp only [Bool.or_eq_true, decide_eq_true_eq, not_or, not_lt] at hv
    obtain ⟨⟨hmin, hmax⟩, hrt⟩ := hv
    refine ⟨⟨h.sources.request, h.sources.group, ?_, hrt⟩,
      h.covered.congr (fun _ => rfl) fun q hq id _ => ⟨hq, rfl, rfl⟩, h.calm, h.both⟩
    have hd : ∀ j, ((if m.sysctl.utilMin ≠ (knob.write m.sysctl v).utilMin then
        Function.update m.uclampDefault .min
          (uclampSeSet (m.uclampDefault .min) (knob.write m.sysctl v).utilMin false)
        else m.uclampDefault) j).Fits := by
      intro j
      split
      · exact fits_update h.sources.default (uclampSeSet_fits (hmin.trans hmax)) j
      · exact h.sources.default j
    intro j
    dsimp only
    split
    · exact fits_update hd (uclampSeSet_fits hmax) j
    · exact hd j

theorem Kept.addTask {t : ClampTask C G B} (h : m.Kept) (hc : (m.addTask p t).Counted)
    (hp : p ∉ m.tasks) (ht : ∀ id, (t.uclamp id).active = false)
    (hreq : ∀ id, (t.uclampReq id).Fits) : (m.addTask p t).Kept := by
  have hself : (m.addTask p t).task p = t := setTask_self
  have hold : ∀ q ∈ m.tasks, (m.addTask p t).task q = m.task q := fun q hq =>
    setTask_of_ne fun he => hp (he ▸ hq)
  refine ⟨⟨h.sources.congr rfl rfl rfl fun q hq id => ?_, h.covered.congr (fun _ => rfl) ?_, h.calm,
    fun q hq => ?_⟩, hc⟩
  · rcases Finset.mem_insert.mp hq with rfl | hq
    · rw [hself]
      exact hreq id
    · rw [hold q hq]
      exact h.sources.request q hq id
  · intro q hq id ha
    rcases Finset.mem_insert.mp hq with rfl | hq
    · rw [hself, ht] at ha
      exact absurd ha (by simp)
    · rw [hold q hq]
      exact ⟨hq, rfl, rfl⟩
  · rcases Finset.mem_insert.mp hq with rfl | hq
    · rw [hself, ht, ht]
    · rw [hold q hq]
      exact h.both q hq

variable [DecidableEq G] {a : ClampAction C T G}

theorem Kept.act (h : m.Kept) (htame : m.Tame a) (ha : m.act a = some m') : m'.Kept := by
  have hcounted := h.counted.act ha
  cases a with
  | enqueue p =>
    obtain ⟨⟨hp, hq⟩, rfl⟩ := guarded ha
    exact h.enqueueTask hp (by simpa using hq)
  | dequeue p =>
    obtain ⟨⟨hp, -⟩, rfl⟩ := guarded ha
    exact h.dequeueTask hp
  | migrate p c =>
    obtain ⟨⟨hp, hq⟩, rfl⟩ := guarded ha
    have hoff := h.counted.2.inactive hp (by simpa using hq)
    exact h.setTask (Or.inl fun id => ⟨hoff id, hoff id⟩) fun hp => h.sources.request p hp
  | setClass p rt uclampEnabled =>
    obtain ⟨⟨hp, hq⟩, rfl⟩ := guarded ha
    have hoff := h.counted.2.inactive hp (by simpa using hq)
    exact h.setTask (Or.inl fun id => ⟨hoff id, hoff id⟩) fun hp => h.sources.request p hp
  | setattr p attr =>
    obtain ⟨-, rfl⟩ := guarded ha
    exact h.setTask (Or.inr (setschedulerUclamp_same _ attr)) fun hp =>
      setRequest_fits htame.2 (setRequest_fits htame.1 (resetRequest_fits h.sources.sysctl
        (resetRequest_fits h.sources.sysctl (h.sources.request p hp))))
  | fork parent child c r =>
    obtain ⟨⟨hparent, hchild⟩, rfl⟩ := guarded ha
    exact h.addTask hcounted hchild (fun id => uclampFork_active r (m.task parent))
      (uclampFork_fits (h.sources.request parent hparent))
  | moveGroup p g =>
    obtain ⟨-, rfl⟩ := guarded ha
    exact h.setTask (Or.inr ⟨rfl, rfl, rfl, rfl⟩) fun hp => h.sources.request p hp
  | newGroup g parent =>
    obtain rfl := Option.some.inj ha
    refine ⟨⟨⟨h.sources.request, fun g' id => ?_, h.sources.default, h.sources.sysctl⟩,
      h.covered.congr (fun _ => rfl) fun q hq id _ => ⟨hq, rfl, rfl⟩, h.calm, h.both⟩, hcounted⟩
    rcases eq_or_ne g' g with rfl | hg
    · simpa using h.sources.group parent id
    · simpa [hg] using h.sources.group g' id
  | groupClamp g id v =>
    obtain ⟨hv, rfl⟩ := guarded ha
    refine ⟨⟨⟨h.sources.request, fun g' j => ?_, h.sources.default, h.sources.sysctl⟩,
      h.covered.congr (fun _ => rfl) fun q hq id _ => ⟨hq, rfl, rfl⟩, h.calm, h.both⟩, hcounted⟩
    rcases eq_or_ne g' g with rfl | hg
    · dsimp only
      rw [Function.update_self]
      exact fits_update (h.sources.group g') (uclampSeSet_fits hv) j
    · simpa [hg] using h.sources.group g' j
  | sysctl knob v =>
    obtain rfl := Option.some.inj ha
    exact h.sysctl knob v hcounted
  | syncRtDefault p =>
    obtain ⟨-, rfl⟩ := guarded ha
    refine h.setTask (Or.inr (uclampUpdateUtilMinRtDefault_same _)) fun hp => ?_
    unfold uclampUpdateUtilMinRtDefault
    split
    · exact fits_update (h.sources.request p hp) (uclampSeSet_fits h.sources.sysctl)
    · exact h.sources.request p hp
  | enable =>
    obtain rfl := Option.some.inj ha
    exact ⟨⟨h.sources.congr rfl rfl rfl h.sources.request,
      h.covered.congr (fun _ => rfl) fun q hq id _ => ⟨hq, rfl, rfl⟩, h.calm, h.both⟩, hcounted⟩
  | updateActive p id =>
    obtain ⟨hp, rfl⟩ := guarded ha
    refine h.uclampUpdateActive hp ?_
    rintro rfl
    exact htame

omit [DecidableEq T] [DecidableEq G] in
theorem Booted.kept (h : m.Booted) : m.Kept := by
  refine ⟨⟨⟨h.request, h.group, h.default, ?_⟩, ⟨fun c id => ?_, ?_, ?_⟩, ?_, ?_⟩, h.counted⟩
  · rw [h.sysctl]
  · rw [h.rq]
    exact initUclampRq_sound
  · intro p hp id ha
    rw [h.inactive p hp] at ha
    exact absurd ha (by simp)
  · intro p hp id ha
    rw [h.inactive p hp] at ha
    exact absurd ha (by simp)
  · intro c hidle
    rw [h.rq] at hidle
    exact absurd hidle (by simp [initUclampRq])
  · intro p hp
    rw [h.inactive p hp, h.inactive p hp]

end Count

end Clamps

/-- The runs whose requests are documented ones and that change a maximum in place only beside
another counted task. -/
def tameClamps (C T G : Type*) (B : ℕ) [NeZero B] [DecidableEq C] [DecidableEq T] [DecidableEq G] :
    System (Clamps C T G B) where
  init := Clamps.Booted
  step m m' := ∃ a, m.Tame a ∧ m.act a = some m'

namespace Clamps

variable {C T G : Type*} {B : ℕ} [NeZero B] [DecidableEq C] [DecidableEq T] [DecidableEq G]
  {m m' : Clamps C T G B} {p q : T} {c : C} {a : ClampAction C T G}

theorem kept (h : (tameClamps C T G B).Reachable m) : m.Kept := by
  refine h.invariant (I := Kept) (fun s hs => Booted.kept hs) ?_
  rintro s s' hs ⟨a, htame, ha⟩
  exact hs.act htame ha

omit [NeZero B] [DecidableEq T] [DecidableEq G] in
theorem Exact.empty {id : ClampId} (h : m.Exact)
    (hnone : ∀ t ∈ m.tasks, (m.task t).cpu = c → ((m.task t).uclamp id).active = false)
    (b : Fin B) : (((m.rq c).uclamp id).bucket b).tasks = 0 := by
  rw [h]
  refine Nat.eq_zero_of_not_pos fun hpos => ?_
  obtain ⟨t, ht, hsome⟩ := tally_pos_iff.mp hpos
  have hc : ((m.task t).uclamp id).active = true ∧ (m.task t).cpu = c := by
    by_contra hc
    simp [ref, hc] at hsome
  rw [hnone t ht hc.2] at hc
  exact absurd hc.1 (by simp)

omit [NeZero B] [DecidableEq G] in
/-- The last counted maximum leaves the flag of an idle runqueue behind. -/
theorem rqDecId_max_idle (hexact : m.Exact) (hp : p ∈ m.tasks)
    (ha : ((m.task p).uclamp .max).active = true)
    (halone : ∀ t ∈ m.tasks, (m.task t).cpu = (m.task p).cpu →
      ((m.task t).uclamp .max).active = true → t = p)
    (hmax : ((m.rq (m.task p).cpu).uclamp .max).value ≤
      (((m.rq (m.task p).cpu).uclamp .max).bucket ((m.task p).uclamp .max).bucketId).value) :
    ((m.rqDecId p .max).rq (m.task p).cpu).idle = true := by
  have hempty : ∀ b, ((((m.rqDecId p .max).rq (m.task p).cpu).uclamp .max).bucket b).tasks = 0 := by
    refine (hexact.rqDecId hp).empty fun t ht hc => ?_
    rw [rqDecId_active]
    split
    case isTrue => rfl
    case isFalse hne =>
      by_contra hact
      rw [rqDecId_task] at hc
      exact hne ⟨halone t ht hc (by simpa using hact), rfl⟩
  rw [rqDecId_rq, if_pos rfl] at hempty ⊢
  obtain ⟨w, i, he, hcase⟩ := uclampRqDecId_spec (m.rq (m.task p).cpu) .max ha
  have hdrop : ∀ b, ((((m.rq (m.task p).cpu).uclamp .max).drop
      ((m.task p).uclamp .max).bucketId).bucket b).tasks = 0 := by
    intro b
    have := hempty b
    rw [he] at this
    simpa only [setUclamp_of_eq] using this
  rw [he]
  dsimp only
  rcases hcase with ⟨-, -, hkeep | hlt⟩ | ⟨-, -, hfound⟩
  · exact absurd (drop_tasks_self ▸ hdrop _) hkeep
  · exact absurd hmax (not_le.mpr hlt)
  · cases hfound with
    | top hb _ => exact absurd (hdrop _) hb
    | idleMin hid _ => exact absurd hid (by decide)
    | idleMax _ _ => exact Bool.or_true _

omit [NeZero B] [DecidableEq C] [DecidableEq T] [DecidableEq G] in
theorem uclampEffGet_congr {id : ClampId} (hr : (m'.task p).uclampReq = (m.task p).uclampReq)
    (ht : (m'.task p).group = (m.task p).group) (hg : m'.group = m.group)
    (hd : m'.uclampDefault = m.uclampDefault) : m'.uclampEffGet p id = m.uclampEffGet p id := by
  have htg : m'.uclampTgRestrict p id = m.uclampTgRestrict p id := by
    unfold uclampTgRestrict
    rw [hr, ht, hg]
  rw [Clamps.uclampEffGet, htg, hd, ← Clamps.uclampEffGet]

omit [NeZero B] [DecidableEq G] in
theorem uclampRqInc_of_ne (h : q ≠ p) : (m.uclampRqInc p).task q = m.task q := by
  unfold Clamps.uclampRqInc
  split
  · change ((m.rqIncId p .min).rqIncId p .max).task q = _
    rw [rqIncId_task, rqIncId_task, if_neg h, if_neg h]
  · rfl

omit [NeZero B] [DecidableEq G] in
theorem uclampRqInc_value_of_idle (hu : m.schedUclampUsed = true)
    (he : (m.task p).uclampEnabled = true) (hidle : (m.rq (m.task p).cpu).idle = true)
    (id : ClampId) : (((m.uclampRqInc p).rq (m.task p).cpu).uclamp id).value =
      (m.uclampEffGet p id).value := by
  have hcpu : (((m.rqIncId p .min).rqIncId p .max).task p).cpu = (m.task p).cpu := by
    rw [rqIncId_task, rqIncId_task]
  have heff : (m.rqIncId p .min).uclampEffGet p .max = m.uclampEffGet p .max :=
    uclampEffGet_congr (by rw [rqIncId_task]) (by rw [rqIncId_task]) rfl rfl
  have hmin : (m.rqIncId p .min).rq (m.task p).cpu = uclampRqIncId (m.rq (m.task p).cpu)
      { m.uclampEffGet p .min with active := true } .min := by
    rw [rqIncId_rq, if_pos rfl]
  have hmax : ((m.rqIncId p .min).rqIncId p .max).rq (m.task p).cpu =
      uclampRqIncId ((m.rqIncId p .min).rq (m.task p).cpu)
        { m.uclampEffGet p .max with active := true } .max := by
    rw [rqIncId_rq, rqIncId_task, if_pos rfl, heff]
  have heq := uclampRqInc_of_on hu he
  dsimp only at heq
  rw [heq, hcpu, setRq_self]
  dsimp only
  rw [hmax]
  cases id with
  | min =>
    rw [uclampRqIncId_of_ne (by decide), hmin, uclampRqIncId_value, if_pos hidle]
    exact max_self _
  | max =>
    rw [uclampRqIncId_value, hmin, uclampRqIncId_idle, if_pos hidle]
    exact max_self _

/-- The maximum of a lone task changed in place leaves its runqueue flagged as idle, and the next
task enqueued there takes over both clamps, however much higher those of the first task are. -/
theorem lone_update_forgotten (h : (clamps C T G B).Reachable m) (hp : p ∈ m.tasks)
    (hq : q ∈ m.tasks) (hpq : q ≠ p) (hcpu : (m.task q).cpu = (m.task p).cpu)
    (ha : ((m.task p).uclamp .max).active = true)
    (halone : ∀ t ∈ m.tasks, (m.task t).cpu = (m.task p).cpu →
      ((m.task t).uclamp .max).active = true → t = p)
    (hmax : ((m.rq (m.task p).cpu).uclamp .max).value ≤
      (((m.rq (m.task p).cpu).uclamp .max).bucket ((m.task p).uclamp .max).bucketId).value)
    (hoff : (m.task q).onRq = false) (hen : (m.task q).uclampEnabled = true) :
    ∃ m₁ m₂, m.act (.updateActive p .max) = some m₁ ∧ (m₁.rq (m.task p).cpu).idle = true ∧
      m₁.act (.enqueue q) = some m₂ ∧ (m₂.task p).uclamp .min = (m.task p).uclamp .min ∧
      (m₂.task p).uclamp .max = { m.uclampEffGet p .max with active := true } ∧
      ∀ id, ((m₂.rq (m.task p).cpu).uclamp id).value = (m.uclampEffGet q id).value := by
  obtain ⟨hexact, heng⟩ := counted h
  have hused := (heng p hp .max ha).2.1
  have hupdate : m.uclampUpdateActive p .max = (m.rqDecId p .max).rqIncId p .max := by
    rw [Clamps.uclampUpdateActive, if_pos ha]
  have htask : ∀ t, t ≠ p → (m.uclampUpdateActive p .max).task t = m.task t := by
    intro t ht
    rw [hupdate, rqIncId_task, rqDecId_task, if_neg ht, if_neg ht]
  have hidle : ((m.uclampUpdateActive p .max).rq (m.task p).cpu).idle = true := by
    rw [hupdate, rqIncId_rq, rqDecId_task, if_pos rfl, uclampRqIncId_idle]
    exact rqDecId_max_idle hexact hp ha halone hmax
  have hself : (m.uclampUpdateActive p .max).task p = { m.task p with
      uclamp := Function.update (m.task p).uclamp .max
        { m.uclampEffGet p .max with active := true } } := by
    have heff : (m.rqDecId p .max).uclampEffGet p .max = m.uclampEffGet p .max :=
      uclampEffGet_congr (by rw [rqDecId_task]) (by rw [rqDecId_task]) rfl rfl
    rw [hupdate, rqIncId_task, heff, rqDecId_task]
    simp
  have heff : ∀ id, (m.uclampUpdateActive p .max).uclampEffGet q id = m.uclampEffGet q id := by
    intro id
    refine uclampEffGet_congr ?_ ?_ ?_ ?_
    · rw [htask q hpq]
    · rw [htask q hpq]
    · rw [hupdate]
      rfl
    · rw [hupdate]
      rfl
  have hlast : ((m.uclampUpdateActive p .max).enqueueTask q).task p =
      (m.uclampUpdateActive p .max).task p :=
    (setTask_of_ne hpq.symm).trans (uclampRqInc_of_ne hpq.symm)
  have htasks : (m.uclampUpdateActive p .max).tasks = m.tasks := by
    rw [hupdate]
    rfl
  have hused' : (m.uclampUpdateActive p .max).schedUclampUsed = true := by
    rw [hupdate]
    exact hused
  generalize hm : m.uclampUpdateActive p .max = n at *
  refine ⟨n, n.enqueueTask q, ?_, hidle, ?_, ?_, ?_, fun id => ?_⟩
  · rw [act, if_pos hp, hm]
  · rw [act, if_pos ⟨htasks ▸ hq, by simp [htask q hpq, hoff]⟩]
  · rw [hlast, hself]
    simp
  · rw [hlast, hself]
    simp
  · rw [← hcpu, ← htask q hpq] at hidle ⊢
    rw [← heff id]
    exact uclampRqInc_value_of_idle hused' (by rw [htask q hpq, hen]) hidle id

theorem lone_update_forgotten_oneCapped : ∃ m₁ m₂,
    oneCapped.act (.updateActive 0 .max) = some m₁ ∧ (m₁.rq 0).idle = true ∧
      m₁.act (.enqueue 1) = some m₂ ∧ (m₂.task 0).uclamp .min = (oneCapped.task 0).uclamp .min ∧
      (m₂.task 0).uclamp .max = { oneCapped.uclampEffGet 0 .max with active := true } ∧
      ∀ id, ((m₂.rq 0).uclamp id).value = (oneCapped.uclampEffGet 1 id).value := by
  refine lone_update_forgotten oneCapped_reachable (by decide) (by decide) (by decide) rfl (by decide) ?_
    (by decide) (by decide) (by decide)
  decide

end Clamps

end OperatingSystem.Kernel
